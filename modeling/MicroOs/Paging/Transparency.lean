import MicroOs.Paging.Cells

/-! # Demand paging is transparent

To a process its image looks like a memory of its own: a read returns what the process last wrote, or the byte of the
image on the disk, no matter how pages are loaded, evicted and moved to other frames in between. Each byte is followed
as a cell behind a write-back cache; faults, evictions and the accesses of others only maintain it.
-/

namespace MicroOs.Paging

open BitMask Memory Kernel

variable {sector : BitVec 32}

/-- The byte that an event writes to an address of a process. -/
def Event.stored (p : ℕ) (vaddr : BitVec 32) : Event → Option (BitVec 8)
  | .write q address byte => if q = p ∧ address = vaddr then some byte else none
  | _ => none

def lastWritten (p : ℕ) (vaddr : BitVec 32) (events : List Event) : Option (BitVec 8) :=
  (events.filterMap (Event.stored p vaddr)).getLast?

/-- The contents of an image, given what was on the disk at first. -/
def imageByte (original : BitVec 32 → Memory) (events : List Event) (pcb : Pcb) (p : ℕ) (vaddr : BitVec 32) :
    BitVec 8 :=
  (lastWritten p vaddr events).getD (original (imageSector pcb vaddr) (vaddr.toNat % sectorSize))

/-- Runs that stay inside of short images, each on sectors of its own. In particular no image is started twice. -/
def OnOwnSectors (s : Kernel) (event : Event) : Prop :=
  InsideImages s event ∧ ∀ swapLoc swapSize, event = .setup false swapLoc swapSize →
    ∀ q < s.pcbCount, (s.pcb q).isThread = false → ∀ sector, OwnsSector (s.pcb q) sector →
      ¬OwnsSector { swapLoc, swapSize } sector

variable {original : BitVec 32 → Memory} {events : List Event} {event : Event} {s s' : Kernel} {next next' p q : ℕ}
  {queue queue' : List ℕ} {role role' : ℕ → Role} {vaddr : BitVec 32}

theorem lastWritten_snoc :
    lastWritten p vaddr (events ++ [event]) = (event.stored p vaddr).or (lastWritten p vaddr events) := by
  rw [lastWritten, lastWritten]
  cases stored : event.stored p vaddr with
  | none | some byte => simp [stored]

theorem ImageInv.images (inv : ImageInv s next queue role) (good : ∀ n, s.scsi n = .good)
    (disjoint : ∀ p < s.pcbCount, ∀ q < s.pcbCount, p ≠ q → (s.pcb p).isThread = false → (s.pcb q).isThread = false →
      ∀ sector, OwnsSector (s.pcb p) sector → ¬OwnsSector (s.pcb q) sector) : Images s.sizes s s.pcbCount :=
  ⟨inv.short, fun _ _ => rfl, disjoint, good⟩

section Load

variable (load : ImageLoad s next queue role p vaddr s' next' queue' role') (inv : ImageInv s next queue role)
  (images : Images s.sizes s s.pcbCount)

include load inv images

/-- A fault loads the page of its address and evicts at most one other page. -/
theorem ImageLoad.cell {a : BitVec 32} (known : p < s.pcbCount) (process : (s.pcb p).isThread = false)
    (inside : InImage (s.pcb p) vaddr) (knownq : q < s.pcbCount) (processq : (s.pcb q).isThread = false)
    (insideq : InImage (s.pcb q) a) : (s.cell q a).Maintained (s'.cell q a) := by
  obtain @⟨frame, next₁, directory, table, queue₁, s₁, first, good, vacant⟩ := load
  obtain ⟨alloc₁, fresh₁⟩ := first.inv inv.system.alloc
  have evolves := Evolves.read (p := p) inv.system.alloc inv.system.map vaddr good first
  obtain ⟨-, map₂⟩ := evolves.inv inv.system.alloc inv.system.map
  obtain ⟨pcb, scsi⟩ := evolves.static
  refine (evolves.cell inv.system.alloc inv.system.map images knownq processq insideq).trans ?_
  apply map₂.cell_withPage (images.congr pcb scsi) alloc₁.bound vacant
  · rw [pcb p known]
    exact inside
  · exact fresh₁.inUse
  · exact Function.update_self ..
  · intro offset bound
    rw [readInto_eq good]
    simp only
    rw [blit_inside _ _ (by omega), Nat.add_sub_cancel_left]
  · exact known
  · rw [pcb p known, process]
  · exact knownq
  · rw [pcb q knownq, processq]
  · rw [pcb q knownq]
    exact insideq

theorem ImageLoad.disk (unowned : ∀ p < s.pcbCount, (s.pcb p).isThread = false → ¬OwnsSector (s.pcb p) sector) :
    s'.disk sector = s.disk sector := by
  obtain @⟨frame, next₁, directory, table, queue₁, s₁, first, good, vacant⟩ := load
  have evolves := Evolves.read (p := p) inv.system.alloc inv.system.map vaddr good first
  exact evolves.disk inv.system.alloc inv.system.map images unowned

end Load

section

variable (step : ImageStep s next queue role event s' next' queue' role')
include step

/-- What a step does to a byte of an image: a write by the process itself changes it, anything else maintains it. -/
theorem ImageStep.cell
    (inv : ImageInv s next queue role) (images : Images s.sizes s s.pcbCount) (known : p < s.pcbCount)
    (process : (s.pcb p).isThread = false) (inside : InImage (s.pcb p) vaddr) : match event.stored p vaddr with
    | some byte => s'.cell p vaddr = (s.cell p vaddr).write byte
    | none => (s.cell p vaddr).Maintained (s'.cell p vaddr) := by
  cases step with
  | thread swapLoc swapSize =>
    rw [inv.system.map.cell_quiet images (quiet_withThread swapLoc swapSize) known process inside]
    exact .refl
  | @process swapLoc swapSize _ _ _ _ short constructed evolves =>
    have quiet := quiet_withPcb s role false swapLoc swapSize
    have pcb : (s.withPcb false swapLoc swapSize).pcb p = s.pcb p := withPcb_earlier known
    rw [← inv.system.map.cell_quiet images quiet known process inside]
    refine evolves.cell (inv.system.alloc.congr rfl rfl rfl) (inv.system.map.quiet le_rfl quiet)
      (images.congr quiet.pcb quiet.scsi) known ?_ ?_
    · rw [pcb, process]
    · rw [pcb]
      exact inside
  | @fault q a errorCode _ _ _ _ knownq processq insideq load =>
    exact load.cell inv images knownq processq insideq known process inside
  | @read q frame directory table a at_frame =>
    obtain ⟨directory', table', place⟩ := inv.system.map.place images known process inside
    exact at_frame.walk.cell_touch at_frame.resident.directory_role at_frame.resident.table_role place (.inl rfl)
  | @write q frame directory table a byte at_frame =>
    simp only [Event.stored]
    split_ifs with here
    · obtain ⟨rfl, rfl⟩ := here
      exact at_frame.cell_write byte
    · obtain ⟨directory', table', place⟩ := inv.system.map.place images known process inside
      have touched := inv.touch at_frame.walk (.inr rfl)
      have images' : Images s.sizes (s.touch q a (peA ||| peD)) s.pcbCount := images.congr (fun _ _ => rfl) rfl
      rw [touched.system.map.cell_store at_frame.page_role images' at_frame.known at_frame.process at_frame.inside known
        process inside fun same => here ⟨same.1.symm, same.2.symm⟩]
      exact at_frame.walk.cell_touch at_frame.resident.directory_role at_frame.resident.table_role place (.inr rfl)

/-- Sectors that belong to no image are left alone. -/
theorem ImageStep.disk (inv : ImageInv s next queue role) (images : Images s.sizes s s.pcbCount)
    (unowned : ∀ p < s.pcbCount, (s.pcb p).isThread = false → ¬OwnsSector (s.pcb p) sector) :
    s'.disk sector = s.disk sector := by
  cases step with
  | thread swapLoc swapSize | read at_frame | write at_frame => rfl
  | @process swapLoc swapSize _ _ _ _ short constructed evolves =>
    have quiet := quiet_withPcb s role false swapLoc swapSize
    apply evolves.disk (inv.system.alloc.congr rfl rfl rfl) (inv.system.map.quiet le_rfl quiet)
      (images.congr quiet.pcb quiet.scsi)
    intro p ready
    rw [quiet.pcb p ready]
    exact unowned p ready
  | fault known process inside load => exact load.disk inv images unowned

theorem ImageStep.static : (∀ p < s.pcbCount, s'.pcb p = s.pcb p) ∧ s'.scsi = s.scsi ∧ s.pcbCount ≤ s'.pcbCount := by
  cases step with
  | thread swapLoc swapSize => exact ⟨fun p ready => withThread_earlier ready, rfl, Nat.le_succ _⟩
  | @process swapLoc swapSize _ _ _ _ short constructed evolves =>
    obtain ⟨-, pcbCount, -⟩ := constructed.static
    obtain ⟨pcb, scsi⟩ := evolves.static
    refine ⟨fun p ready => ?_, scsi, ?_⟩
    · rw [pcb p ready, withPcb_earlier ready]
    · rw [pcbCount]
      exact Nat.le_succ _
  | fault known process inside load =>
    have static := load.static
    exact ⟨fun p _ => by rw [static.pcb], static.scsi, static.pcbCount.ge⟩
  | read at_frame | write at_frame => exact ⟨fun _ _ => rfl, rfl, le_rfl⟩

end

theorem Constructed.image_absent (constructed : Constructed s next queue p s' next' queue')
    (alloc : AllocInv s next queue)
    {scope : Scope} (map : MapInv scope s p next queue role) (kernelTable : s.userKernelPtable = framePaddr 2)
    (short : ShortImage (s'.pcb p).swapSize) (inside : InImage (s'.pcb p) vaddr) : (s'.cell p vaddr).cached = none := by
  obtain ⟨directory, table, stack, _, _, _, _, _, _, role', -, -, -, space⟩ :=
    constructed.space alloc map kernelTable
  obtain ⟨-, small⟩ := inside.getTableIndex short
  have walk : Walk s' p vaddr directory table := by
    refine ⟨space.pointer, ?_, ?_⟩
    · rw [inside.getDirectoryIndex short, space.directory_word 4 (by decide), if_pos (.inl rfl),
        entryBase_dirEntry_frame space.table_bound]
    · exact ne_of_role space.table_role space.directory_role nofun
  have notStack : getTableIndex vaddr ≠ 1023 := by
    rw [ShortImage] at short
    omega
  rw [walk.cell_eq, space.image_absent _ (getTableIndex_lt vaddr) notStack (short.enters small)]
  rfl

/-- A process that a step adds has the image that the event names, of which no page is present. -/
theorem ImageStep.added (step : ImageStep s next queue role event s' next' queue' role')
    (inv : ImageInv s next queue role) (new : s.pcbCount ≤ p) (known : p < s'.pcbCount)
    (process : (s'.pcb p).isThread = false) : p = s.pcbCount ∧
      event = .setup false (s'.pcb p).swapLoc (s'.pcb p).swapSize ∧
      ∀ vaddr, InImage (s'.pcb p) vaddr → (s'.cell p vaddr).cached = none := by
  cases step with
  | thread swapLoc swapSize =>
    obtain rfl : p = s.pcbCount := Nat.le_antisymm (Nat.le_of_lt_succ known) new
    rw [(withThread_self swapLoc swapSize).1] at process
    cases process
  | @process swapLoc swapSize _ _ _ _ short constructed evolves =>
    obtain ⟨⟨pageDirectory, pcb⟩, pcbCount, -⟩ := constructed.static
    obtain rfl : p = s.pcbCount := by
      rw [pcbCount] at known
      exact Nat.le_antisymm (Nat.le_of_lt_succ known) new
    have self : s'.pcb s.pcbCount = { (s.withPcb false swapLoc swapSize).pcb s.pcbCount with pageDirectory } := by
      rw [pcb, Function.update_self]
    have quiet := quiet_withPcb s role false swapLoc swapSize
    refine ⟨rfl, by rw [self, withPcb_self], fun vaddr inside => ?_⟩
    apply constructed.image_absent (inv.system.alloc.congr rfl rfl rfl) (inv.system.map.quiet le_rfl quiet)
    · exact (quiet.kernel inv.system.kernel).userKernelPtable
    · rw [self, withPcb_self]
      exact short
    · exact inside
  | fault _ _ _ load =>
    rw [load.static.pcbCount] at known
    omega
  | read at_frame | write at_frame => exact absurd known new.not_gt

/-- The images hold what has been written to them, and the sectors of images still to be started are as at first. -/
structure Paged (original : BitVec 32 → Memory) (events : List Event) (s : Kernel) (next : ℕ) (queue : List ℕ)
    (role : ℕ → Role) : Prop where
  inv : ImageInv s next queue role
  images : Images s.sizes s s.pcbCount
  untouched : ∀ sector, (∀ p < s.pcbCount, (s.pcb p).isThread = false → ¬OwnsSector (s.pcb p) sector) →
    s.disk sector = original sector
  cells : ∀ p < s.pcbCount, (s.pcb p).isThread = false → ∀ vaddr, InImage (s.pcb p) vaddr →
    (s.cell p vaddr).Holds (imageByte original events (s.pcb p) p vaddr)
  fresh : ∀ p, s.pcbCount ≤ p → ∀ vaddr, lastWritten p vaddr events = none

theorem paged_initial (mem : Memory) {scsi : ℕ → ScsiResult} (ticks : ℕ → BitVec 64) (good : ∀ n, scsi n = .good) :
    Paged original [] (initial mem original scsi ticks) 3 [] kernelRoles where
  inv := imageInv_initial mem original scsi ticks
  images := (imageInv_initial mem original scsi ticks).images good nofun
  untouched _ _ := rfl
  cells p ready := absurd ready (Nat.not_lt_zero p)
  fresh _ _ _ := rfl

/-- Only processes that have been set up write. -/
theorem ImageStep.stored_none (step : ImageStep s next queue role event s' next' queue' role') (new : s.pcbCount ≤ p) :
    event.stored p vaddr = none := by
  cases step with
  | write at_frame =>
    have known := at_frame.known
    exact if_neg fun same => by omega
  | _ => rfl

section Step

variable (paged : Paged original events s next queue role)
  (step : ImageStep s next queue role event s' next' queue' role')
  (separate : ∀ swapLoc swapSize, event = .setup false swapLoc swapSize → ∀ q < s.pcbCount,
    (s.pcb q).isThread = false → ∀ sector, OwnsSector (s.pcb q) sector → ¬OwnsSector { swapLoc, swapSize } sector)

include paged step

/-- The sectors of an image that is started are not those of another. -/
theorem Paged.apart (separate : ∀ swapLoc swapSize, event = .setup false swapLoc swapSize →
      ∀ q < s.pcbCount, (s.pcb q).isThread = false → ∀ sector, OwnsSector (s.pcb q) sector →
        ¬OwnsSector { swapLoc, swapSize } sector)
    (new : s.pcbCount ≤ p) (known : p < s'.pcbCount) (process : (s'.pcb p).isThread = false) (old : q < s.pcbCount)
    (processq : (s.pcb q).isThread = false) (owns : OwnsSector (s.pcb q) sector) : ¬OwnsSector (s'.pcb p) sector := by
  obtain ⟨-, started, -⟩ := step.added paged.inv new known process
  exact separate _ _ started q old processq sector owns

include separate in
theorem Paged.disjoint (readyp : p < s'.pcbCount) (readyq : q < s'.pcbCount) (different : p ≠ q)
    (processp : (s'.pcb p).isThread = false) (processq : (s'.pcb q).isThread = false) (sector : BitVec 32)
    (owns : OwnsSector (s'.pcb p) sector) : ¬OwnsSector (s'.pcb q) sector := by
  obtain ⟨pcb, -, -⟩ := step.static
  rcases Nat.lt_or_ge p s.pcbCount with oldp | newp <;> rcases Nat.lt_or_ge q s.pcbCount with oldq | newq
  · rw [pcb p oldp] at processp owns
    rw [pcb q oldq] at processq ⊢
    exact paged.images.disjoint p oldp q oldq different processp processq sector owns
  · rw [pcb p oldp] at processp owns
    exact paged.apart step separate newq readyq processq oldp processp owns
  · rw [pcb q oldq] at processq ⊢
    exact fun ownsq => paged.apart step separate newp readyp processp oldq processq ownsq owns
  · obtain ⟨rfl, -⟩ := step.added paged.inv newp readyp processp
    obtain ⟨rfl, -⟩ := step.added paged.inv newq readyq processq
    exact absurd rfl different

theorem Paged.cell_old (known : p < s.pcbCount) (process : (s.pcb p).isThread = false)
    (inside : InImage (s.pcb p) vaddr) :
    (s'.cell p vaddr).Holds (imageByte original (events ++ [event]) (s.pcb p) p vaddr) := by
  have holds := paged.cells p known process vaddr inside
  have change := step.cell paged.inv paged.images known process inside
  rw [imageByte, lastWritten_snoc]
  cases stored : event.stored p vaddr with
  | some byte =>
    rw [stored] at change
    rw [change]
    exact Cell.holds_write _ byte
  | none =>
    rw [stored] at change
    exact holds.maintained change

include separate in
theorem Paged.cell_new (new : s.pcbCount ≤ p) (known : p < s'.pcbCount) (process : (s'.pcb p).isThread = false)
    (inside : InImage (s'.pcb p) vaddr) :
    (s'.cell p vaddr).Holds (imageByte original (events ++ [event]) (s'.pcb p) p vaddr) := by
  obtain ⟨-, -, absent⟩ := step.added paged.inv new known process
  have none := absent vaddr inside
  have unowned : ∀ q < s.pcbCount, (s.pcb q).isThread = false →
      ¬OwnsSector (s.pcb q) (imageSector (s'.pcb p) vaddr) := by
    intro q old processq owns
    exact paged.apart step separate new known process old processq owns inside.ownsSector
  have backing : (s'.cell p vaddr).backing = original (imageSector (s'.pcb p) vaddr) (vaddr.toNat % sectorSize) := by
    rw [← paged.untouched _ unowned, ← step.disk paged.inv paged.images unowned]
    rfl
  rw [imageByte, lastWritten_snoc, step.stored_none new, paged.fresh p new vaddr]
  refine ⟨?_, ?_⟩
  · rw [Cell.view, none]
    exact backing
  · rw [none]
    intro _ some
    cases some

end Step

/-- An event keeps what the processes see of their images. -/
theorem Paged.step (paged : Paged original events s next queue role)
    (taken : Guarded OnOwnSectors (Step config) s event s') :
    ∃ next' queue' role', Paged original (events ++ [event]) s' next' queue' role' := by
  obtain ⟨⟨guard, separate⟩, step⟩ := taken
  obtain ⟨next', queue', role', inv', step⟩ := paged.inv.step ⟨guard, step⟩
  obtain ⟨pcb, scsi, grown⟩ := step.static
  refine ⟨next', queue', role', inv', ?_, ?_, ?_, ?_⟩
  · apply inv'.images
    · rw [scsi]
      exact paged.images.good
    · intro p readyp q readyq
      exact paged.disjoint step separate readyp readyq
  · intro sector none
    have unowned : ∀ p < s.pcbCount, (s.pcb p).isThread = false → ¬OwnsSector (s.pcb p) sector := by
      intro p ready
      rw [← pcb p ready]
      exact none p (by omega)
    rw [step.disk paged.inv paged.images unowned, paged.untouched sector unowned]
  · intro p ready process vaddr inside
    rcases Nat.lt_or_ge p s.pcbCount with old | new
    · rw [pcb p old] at process inside ⊢
      exact paged.cell_old step old process inside
    · exact paged.cell_new step separate new ready process inside
  · intro p new vaddr
    rw [lastWritten_snoc, step.stored_none (by omega), paged.fresh p (by omega)]
    rfl

theorem Paged.read {byte : BitVec 8} (paged : Paged original events s next queue role)
    (taken : Guarded OnOwnSectors (Step config) s (.read p vaddr byte) s') :
    byte = imageByte original events (s.pcb p) p vaddr := by
  obtain ⟨⟨guard, -⟩, step⟩ := taken
  obtain ⟨_, _, _, -, step⟩ := paged.inv.step ⟨guard, step⟩
  cases step with
  | @read _ frame directory table _ at_frame =>
    have holds := paged.cells p at_frame.known at_frame.process vaddr at_frame.inside
    rw [← holds.view_eq, at_frame.walk.cell_eq, at_frame.present, at_frame.base]
    rfl

/-- There is a frame for the next page: on the free list or in the queue. -/
def Kernel.HasFrame (s : Kernel) : Prop := s.pageFreeHead ≠ none ∨ s.fifoQueue.items ≠ 0#32

theorem AllocInv.allocatable_pos (alloc : AllocInv s next queue) (frame : s.HasFrame) : 0 < allocatable next queue := by
  rw [allocatable]
  rcases frame with free | queued
  · rw [alloc.head] at free
    split_ifs at free with available
    · omega
    · exact absurd rfl free
  · cases queue with
    | nil =>
      apply absurd _ queued
      apply BitVec.eq_of_toNat_eq
      rw [alloc.represents.items_toNat]
      rfl
    | cons frame rest =>
      rw [List.length_cons]
      omega

/-- The read returns a byte, after the page fault that it raises if the page is not present. -/
def ReadReturns (s : Kernel) (p : ℕ) (vaddr : BitVec 32) (byte : BitVec 8) : Prop :=
  (∃ s', Guarded OnOwnSectors (Step config) s (.read p vaddr byte) s') ∨
    ∃ s₁ s', Guarded OnOwnSectors (Step config) s (.fault p vaddr 4#32) s₁ ∧
      Guarded OnOwnSectors (Step config) s₁ (.read p vaddr byte) s'

theorem Kernel.canRead (known : p < s.pcbCount) (process : (s.pcb p).isThread = false)
    (inside : InImage (s.pcb p) vaddr) (reached : s.userPage p vaddr ≠ none) :
    ∃ byte s', Guarded OnOwnSectors (Step config) s (.read p vaddr byte) s' := by
  obtain ⟨page, some⟩ := Option.ne_none_iff_exists'.mp reached
  refine ⟨s.mem (page + vaddr.toNat % pageSize), s.touch p vaddr peA, ⟨inside, nofun⟩,
    .read known process ?_⟩
  rw [userRead, some]
  rfl

theorem Paged.returns (paged : Paged original events s next queue role) (frame : s.HasFrame) (known : p < s.pcbCount)
    (process : (s.pcb p).isThread = false) (inside : InImage (s.pcb p) vaddr) :
    ReadReturns s p vaddr (imageByte original events (s.pcb p) p vaddr) := by
  cases present : hasFlag (pte s.mem (s.pcb p).pageDirectory vaddr) peP with
  | true =>
    obtain ⟨page, reached, -⟩ := paged.inv.userPage known process inside present
    obtain ⟨byte, s', taken⟩ := canRead known process inside (by simp [reached])
    rw [← paged.read taken]
    exact .inl ⟨s', taken⟩
  | false =>
    obtain ⟨s₁, next₁, queue₁, role₁, ⟨guard, fault⟩, inv₁, load⟩ :=
      paged.inv.canLoad known process inside (.inr present)
      (paged.inv.system.alloc.allocatable_pos frame) (fun first => first.good paged.images.good)
      (show hasFlag 4#32 1#32 = false by decide)
    have taken₁ : Guarded OnOwnSectors (Step config) s (.fault p vaddr 4#32) s₁ :=
      ⟨⟨guard, nofun⟩, fault⟩
    obtain ⟨_, _, _, paged₁⟩ := paged.step taken₁
    obtain ⟨_, reached, -⟩ := load.userPage paged.inv.system.alloc paged.inv.system.map
    have static := load.static
    obtain ⟨byte, s', taken⟩ := canRead (by rwa [static.pcbCount])
      (by rwa [static.pcb]) (by rwa [static.pcb]) (by simp [reached])
    have value := paged₁.read taken
    rw [imageByte, lastWritten_snoc, static.pcb] at value
    refine .inr ⟨s₁, s', taken₁, ?_⟩
    rw [imageByte]
    exact value ▸ taken

theorem paged_of_run {mem : Memory} {scsi : ℕ → ScsiResult} {ticks : ℕ → BitVec 64} (good : ∀ n, scsi n = .good)
    (run : Run (Guarded OnOwnSectors (Step config)) (initial mem original scsi ticks) events s) :
    ∃ next queue role, Paged original events s next queue role := by
  refine run.invariant_labels (fun events s => ∃ next queue role, Paged original events s next queue role) ?_
    ⟨3, [], kernelRoles, paged_initial mem ticks good⟩
  rintro seen before event after ⟨next, queue, role, paged⟩ taken
  exact paged.step taken

/-- In runs inside of images on sectors of their own, with a disk that works, reads return what the process last
wrote, or the original byte, as long as there is a frame for the page. -/
theorem demand_paging_transparent {mem : Memory} {scsi : ℕ → ScsiResult} {ticks : ℕ → BitVec 64} {s₀ : Kernel}
    (booted : (boot mem original scsi ticks).initMemory config = .ok s₀) (good : ∀ n, scsi n = .good)
    (run : Run (Guarded OnOwnSectors (Step config)) s₀ events s) :
    (∀ p vaddr byte s', Guarded OnOwnSectors (Step config) s (.read p vaddr byte) s' →
      byte = imageByte original events (s.pcb p) p vaddr) ∧
    (s.HasFrame → ∀ p < s.pcbCount, (s.pcb p).isThread = false → ∀ vaddr, InImage (s.pcb p) vaddr →
      ReadReturns s p vaddr (imageByte original events (s.pcb p) p vaddr)) := by
  rw [initMemory_eq] at booted
  cases booted
  obtain ⟨next, queue, role, paged⟩ := paged_of_run good run
  exact ⟨fun p vaddr byte s' taken => paged.read taken, fun frame p known process vaddr inside =>
    paged.returns frame known process inside⟩

/-- A process loads a page, writes its first byte and reads it back. -/
theorem demand_paging_transparent_first_page : ∃ s₀ s,
    (boot (fun _ => 0#8) (fun _ _ => 0#8) (fun _ => .good) fun _ => 0#64).initMemory config = .ok s₀ ∧
      Run (Guarded OnOwnSectors (Step config)) s₀
        [.setup false 0#32 16#32, .fault 0 0x1000000#32 4#32, .write 0 0x1000000#32 7#8] s ∧
      ReadReturns s 0 0x1000000#32 7#8 := by
  obtain ⟨s₁, s₂, role, ⟨short, first⟩, ⟨inside, second⟩, inv, count, process, size, page, writable⟩ :=
    first_page_loaded fun _ _ => 0#8
  have known : 0 < s₂.pcbCount := by omega
  have inside₂ : InImage (s₂.pcb 0) 0x1000000#32 := by
    rw [InImage, size]
    decide
  have setup : Guarded OnOwnSectors (Step config) _ (.setup false 0#32 16#32) s₁ :=
    ⟨⟨short, fun _ _ _ q bound => absurd bound (Nat.not_lt_zero q)⟩, first⟩
  have fault : Guarded OnOwnSectors (Step config) s₁ (.fault 0 0x1000000#32 4#32) s₂ :=
    ⟨⟨inside, by simp⟩, second⟩
  obtain ⟨s, written⟩ : ∃ s, s₂.userWrite 0 0x1000000#32 7#8 = some s := by
    rw [userWrite, if_pos writable, page]
    exact ⟨_, rfl⟩
  have write : Guarded OnOwnSectors (Step config) s₂ (.write 0 0x1000000#32 7#8) s :=
    ⟨⟨inside₂, by simp⟩, .write known process written⟩
  have run := ((Run.single setup).snoc fault).snoc write
  have plain : Guarded InsideImages (Step config) s₂ (.write 0 0x1000000#32 7#8) s :=
    ⟨inside₂, .write known process written⟩
  obtain ⟨_, _, _, inv', step⟩ := inv.step plain
  obtain ⟨pcb, -, grown⟩ := step.static
  have frame : s.HasFrame := by
    cases step with
    | write at_frame =>
      left
      rw [inv'.system.alloc.head]
      decide
  have returns := (demand_paging_transparent (initMemory_eq ..) (fun _ => rfl) run).2 frame 0 (by omega)
    (by rw [pcb 0 known, process]) 0x1000000#32 (by rwa [pcb 0 known])
  exact ⟨_, s, initMemory_eq .., run, returns⟩

end MicroOs.Paging
