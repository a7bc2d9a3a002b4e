import MicroOs.Library.Run
import MicroOs.Paging.Pager

/-! # The processor's cache of translations

The processor keeps table entries it has walked to, by page, until `invlpg` names an address in the page or another
directory is loaded. `table_map_page` and `page_set_mode` call `invalidate_page` after each store. There the operand of
`invlpg` is the pointer parameter and not what it points to: the page that is invalidated is the one of the kernel stack
that holds the parameter.
-/

namespace MicroOs.Paging

open BitMask Memory Function

def pageNumber (vaddr : BitVec 32) : ℕ := vaddr.toNat / pageSize

/-- The cached table entry of each page, by the number of the page. -/
abbrev Tlb := ℕ → Option (BitVec 32)

/-- Drop the translation for the page that contains an address. -/
def invlpg (tlb : Tlb) (address : BitVec 32) : Tlb := update tlb (pageNumber address) none

/-- Invalidate page that contains the given virtual address. By the constraint `"m"(vaddr)` the operand is the
variable `vaddr`, kept at `slot`. -/
def invalidatePage (tlb : Tlb) (slot _vaddr : BitVec 32) : Tlb := invlpg tlb slot

/-- The processor, its kernel, the page directory that is loaded and the cached translations. -/
structure Processor where
  kernel : Kernel
  pageDirectory : ℕ
  tlb : Tlb

namespace Processor

variable (m : Processor)

/-- Map a page in the page table. The parameter of `invalidate_page` is at `slot`, here and below. -/
def tableMapPage (slot : BitVec 32) (table : ℕ) (vaddr paddr mode : BitVec 32) : Processor :=
  { m with
    kernel := { m.kernel with mem := MicroOs.Paging.tableMapPage m.kernel.mem table vaddr paddr mode }
    tlb := invalidatePage m.tlb slot vaddr }

/-- Set the twelve least significant bits in a page table entry. -/
def pageSetMode (slot : BitVec 32) (pdir : ℕ) (vaddr mode : BitVec 32) : Outcome Processor := do
  let kernel ← m.kernel.pageSetMode pdir vaddr mode
  pure { m with kernel, tlb := invalidatePage m.tlb slot vaddr }

def unmapPhysicalPage (slot : BitVec 32) (pdir : ℕ) (vaddr : BitVec 32) : Outcome Processor :=
  m.pageSetMode slot pdir vaddr 0#32

def setPageDirectory (pdir : ℕ) : Processor := { m with pageDirectory := pdir, tlb := fun _ => none }

/-- The table entry that the processor uses for an address. -/
def entryFor (vaddr : BitVec 32) : BitVec 32 :=
  (m.tlb (pageNumber vaddr)).getD (pte m.kernel.mem m.pageDirectory vaddr)

end Processor

/-- The entry of an address in the loaded directory is changed by a function that invalidates its page. -/
inductive ChangesEntry (m : Processor) (slot vaddr : BitVec 32) : Processor → Prop
  | map {table : ℕ} {paddr mode : BitVec 32} (walks : getPageTable m.kernel.mem vaddr m.pageDirectory = some table) :
      ChangesEntry m slot vaddr (m.tableMapPage slot table vaddr paddr mode)
  | mode {mode : BitVec 32} {m' : Processor} (ran : m.pageSetMode slot m.pageDirectory vaddr mode = .ok m') :
      ChangesEntry m slot vaddr m'
  | unmap {m' : Processor} (ran : m.unmapPhysicalPage slot m.pageDirectory vaddr = .ok m') :
      ChangesEntry m slot vaddr m'

variable {m m' : Processor} {slot vaddr : BitVec 32}

theorem Processor.pageSetMode_tlb {pdir : ℕ} {mode : BitVec 32} (ran : m.pageSetMode slot pdir vaddr mode = .ok m') :
    m'.tlb = invalidatePage m.tlb slot vaddr := by
  obtain ⟨kernel, -, result⟩ := Outcome.bind_eq_ok_iff.mp ran
  cases result
  rfl

/-- All changes have the same effect on the cache. -/
theorem ChangesEntry.tlb (changed : ChangesEntry m slot vaddr m') : m'.tlb = invalidatePage m.tlb slot vaddr := by
  cases changed with
  | map walks => rfl
  | mode ran | unmap ran => exact Processor.pageSetMode_tlb ran

theorem invalidatePage_ne {tlb : Tlb} {page : ℕ} (apart : page ≠ pageNumber slot) :
    invalidatePage tlb slot vaddr page = tlb page := update_of_ne apart ..

/-- After a change no translation for the page is left exactly when there was none, or when the parameter of
`invalidate_page` lies in the page itself. -/
theorem translation_dropped_iff (changed : ChangesEntry m slot vaddr m') :
    m'.tlb (pageNumber vaddr) = none ↔ m.tlb (pageNumber vaddr) = none ∨ pageNumber slot = pageNumber vaddr := by
  rw [changed.tlb]
  rcases eq_or_ne (pageNumber vaddr) (pageNumber slot) with same | apart
  · rw [same]
    exact iff_of_true (update_self ..) (.inr rfl)
  · rw [invalidatePage_ne apart]
    exact (or_iff_left apart.symm).symm

/-- A processor with one cached translation, whose directory entries are all present. -/
def cachedProcessor (page : ℕ) : Processor where
  kernel := { mem := fun _ => 1#8, disk := fun _ _ => 0#8, scsi := fun _ => .good }
  pageDirectory := framePaddr 3
  tlb := update (fun _ => none) page (some 0x01010101#32)

theorem translation_dropped_same_page : ∃ m',
    ChangesEntry (cachedProcessor 0x41) 0x41ff0#32 0x41000#32 m' ∧ m'.tlb (pageNumber 0x41000#32) = none := by
  have changed := @ChangesEntry.map (cachedProcessor 0x41) 0x41ff0#32 0x41000#32 0x1010000 0#32 0#32 (by decide)
  exact ⟨_, changed, (translation_dropped_iff changed).mpr (.inr (by decide))⟩

/-- The first page of an image is unmapped, and the processor goes on with the entry from before. -/
theorem translation_survives_unmap : ∃ m', ChangesEntry (cachedProcessor 0x1000) 0x41ff0#32 processVaddr m' ∧
    m'.tlb (pageNumber processVaddr) ≠ none ∧
    hasFlag (pte m'.kernel.mem m'.pageDirectory processVaddr) peP = false ∧
    hasFlag (m'.entryFor processVaddr) peP = true := by
  refine ⟨_, .unmap rfl, ?_, ?_, ?_⟩
  · decide
  all_goals decide +kernel

inductive CacheEvent
  | access (vaddr : BitVec 32)
  | forget (page : ℕ)
  | change (slot vaddr : BitVec 32)
  | load (pdir : ℕ)

/-- One event. An access without a cached translation caches the entry it walks to; the processor may forget one at
any time. -/
inductive CacheStep (m : Processor) : CacheEvent → Processor → Prop
  | hit {vaddr : BitVec 32} (cached : m.tlb (pageNumber vaddr) ≠ none) : CacheStep m (.access vaddr) m
  | miss {vaddr : BitVec 32} (missing : m.tlb (pageNumber vaddr) = none)
      (directory : hasFlag (pde m.kernel.mem m.pageDirectory vaddr) peP = true)
      (table : hasFlag (pte m.kernel.mem m.pageDirectory vaddr) peP = true) :
      CacheStep m (.access vaddr) { m with
        tlb := update m.tlb (pageNumber vaddr) (some (pte m.kernel.mem m.pageDirectory vaddr)) }
  | forget {page : ℕ} : CacheStep m (.forget page) { m with tlb := update m.tlb page none }
  | change {m' : Processor} {slot vaddr : BitVec 32} (changed : ChangesEntry m slot vaddr m') :
      CacheStep m (.change slot vaddr) m'
  | load {pdir : ℕ} : CacheStep m (.load pdir) (m.setPageDirectory pdir)

/-- The area of the kernel stacks. -/
def OnKernelStack (slot : BitVec 32) : Prop := 0x40000 ≤ slot.toNat ∧ slot.toNat < 0x80000

/-- The kernel runs on its own stacks, loads no directory, and the processor does not forget the page. -/
def Undropped (page : ℕ) (_ : Processor) : CacheEvent → Prop
  | .access _ => True
  | .forget other => other ≠ page
  | .change slot _ => OnKernelStack slot
  | .load _ => False

theorem OnKernelStack.pageNumber_lt (stack : OnKernelStack slot) : pageNumber slot < 0x80 := by
  obtain ⟨-, upper⟩ := stack
  rw [pageNumber, pageSize]
  omega

/-- No step drops a translation behind the kernel stacks. -/
theorem CacheStep.keeps {page : ℕ} {entry : BitVec 32} {event : CacheEvent} (behind : 0x80 ≤ page)
    (cached : m.tlb page = some entry) (step : Guarded (Undropped page) CacheStep m event m') :
    m'.tlb page = some entry := by
  obtain ⟨guard, step⟩ := step
  cases step with
  | hit _ => exact cached
  | @miss vaddr missing _ _ =>
    have apart : page ≠ pageNumber vaddr := by
      rintro rfl
      rw [missing] at cached
      cases cached
    exact (update_of_ne apart ..).trans cached
  | forget =>
    have apart : page ≠ _ := Ne.symm guard
    exact (update_of_ne apart ..).trans cached
  | @change _ slot vaddr changed =>
    have stack : OnKernelStack slot := guard
    have below := stack.pageNumber_lt
    rw [changed.tlb, invalidatePage_ne (by omega)]
    exact cached
  | load => exact guard.elim

/-- Whatever the kernel does to the entries of the loaded directory, a cached translation of a page behind the kernel
stacks stays in use until another directory is loaded or the processor forgets it. -/
theorem cached_translation_stays {page : ℕ} {entry : BitVec 32} {events : List CacheEvent} (behind : 0x80 ≤ page)
    (cached : m.tlb page = some entry) (run : Run (Guarded (Undropped page) CacheStep) m events m') :
    m'.tlb page = some entry :=
  run.invariant (fun m => m.tlb page = some entry) (fun before step => CacheStep.keeps behind before step) cached

theorem cached_translation_stays_unmapped : ∃ m', Run (Guarded (Undropped 0x1000) CacheStep) (cachedProcessor 0x1000)
    [.change 0x41ff0#32 processVaddr] m' ∧ m'.tlb 0x1000 = some 0x01010101#32 := by
  have step : Guarded (Undropped 0x1000) CacheStep (cachedProcessor 0x1000) (.change 0x41ff0#32 processVaddr) _ :=
    ⟨⟨by decide, by decide⟩, .change (.unmap rfl)⟩
  exact ⟨_, .single step, cached_translation_stays (by decide) rfl (.single step)⟩

end MicroOs.Paging
