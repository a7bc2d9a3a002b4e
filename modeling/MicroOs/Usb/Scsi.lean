import MicroOs.Usb.KernelHeap

/-! # Attaching a SCSI device

`scsi_init` takes the lock of the device, allocates the device and asks the unit whether it is ready, up to twenty-one
times. Then it reads the capacity. It is to attach the device if the unit answers both with GOOD, and otherwise to leave
nothing behind.

The driver's read function returns 0 for GOOD, 1 for FAILED and a negative number for a transfer that did not take
place. Its results are an input of the model. `scsi_test_unit_ready` takes all but FAILED for an answer, so a failed
transfer counts as GOOD. When all attempts have failed, `scsi_init` calls `scsi_free` before it gives the lock back, and
`scsi_free` waits for it.
-/

namespace MicroOs.Scsi

open Allocator List Option

inductive OpCode
  | testUnitReady | requestSense | readCapacity10
deriving DecidableEq

def scsiRcGood : ℤ := 0
def scsiRcFailed : ℤ := 1

def errNoMem : ℤ := -1
def errProto : ℤ := -4

/-- What the driver's read function returns, and the capacity that it delivers. -/
structure Reply where
  rc : ℤ
  totalBlockCount : BitVec 32
  blockSize : BitVec 32

def scsiDevSize : ℕ := 28

/-- The device and its lock, the kernel heap, and the commands sent with their results. -/
structure State where
  heap : Heap
  scsi : Option ℕ
  blockSize : BitVec 32
  totalBlockCount : BitVec 32
  locked : Bool
  log : List (OpCode × ℤ)

def ntohl (x : BitVec 32) : BitVec 32 :=
  x.extractLsb' 0 8 ++ x.extractLsb' 8 8 ++ x.extractLsb' 16 8 ++ x.extractLsb' 24 8

namespace State

/-- There is no result for a lock that this task holds: it yields for ever. -/
def spinlockAcquire (s : State) : Option State := if s.locked then none else some { s with locked := true }

def spinlockRelease (s : State) : State := { s with locked := false }

def scsiFree (s : State) : Option State := do
  let s ← s.spinlockAcquire
  let heap ← match s.scsi with
    | none => some s.heap
    | some ptr => kfree s.heap ptr
  some { s with heap, scsi := none }.spinlockRelease

variable (driver : ℕ → Reply)

/-- A call of the driver's read function, which gives its replies one after another. -/
def read (s : State) (opCode : OpCode) : Reply × State :=
  let reply := driver s.log.length
  (reply, { s with log := s.log ++ [(opCode, reply.rc)] })

def scsiRequestSense (s : State) : State := (s.read driver .requestSense).2

def scsiTestUnitReady (s : State) : ℤ × State :=
  let (reply, s) := s.read driver .testUnitReady
  if reply.rc = scsiRcFailed then (-1, s.scsiRequestSense driver) else (0, s)

def scsiReadCapacity (s : State) : ℤ × State :=
  let (reply, s) := s.read driver .readCapacity10
  if reply.rc ≠ scsiRcGood then (-1, s)
  else (0, { s with totalBlockCount := ntohl reply.totalBlockCount, blockSize := ntohl reply.blockSize })

/-- The loop that asks again, with the attempts left and the result so far. -/
def retry : ℕ → ℤ → State → ℤ × State
  | 0, rc, s => (rc, s)
  | attempts + 1, rc, s =>
    if rc < 0 then
      let (rc, s) := s.scsiTestUnitReady driver
      retry attempts rc s
    else (rc, s)

/-- What is returned, with the state afterwards, if the call returns. -/
def scsiInit (s : State) : Option (ℤ × State) := do
  let s ← s.spinlockAcquire
  if s.scsi ≠ none then return (errProto, s.spinlockRelease)
  let (scsi, heap) ← kzalloc s.heap scsiDevSize
  let s := { s with heap, scsi, blockSize := 0, totalBlockCount := 0 }
  if s.scsi = none then return (errNoMem, s.spinlockRelease)
  let (rc, s) := s.scsiTestUnitReady driver
  let (rc, s) := s.retry driver 20 rc
  if rc < 0 then
    let s ← s.scsiFree
    return (errProto, s.spinlockRelease)
  let (rc, s) := s.scsiReadCapacity driver
  if rc < 0 then
    let s ← s.spinlockRelease.scsiFree
    return (errProto, s)
  return (0, s.spinlockRelease)

end State

/-- The unit has failed the attempts before attempt `a`, counted from 0, with a request for the sense data after
each, and not this one. -/
def FirstAnswer (driver : ℕ → Reply) (a : ℕ) : Prop :=
  (∀ i < a, (driver (2 * i)).rc = scsiRcFailed) ∧ (driver (2 * a)).rc ≠ scsiRcFailed

namespace State

variable {driver : ℕ → Reply} {s : State}

theorem scsiTestUnitReady_failed {reply : Reply} (next : driver s.log.length = reply)
    (failed : reply.rc = scsiRcFailed) :
    s.scsiTestUnitReady driver =
      (-1, { s with log := s.log ++ [(.testUnitReady, scsiRcFailed),
        (.requestSense, (driver (s.log.length + 1)).rc)] }) := by
  simp [scsiTestUnitReady, scsiRequestSense, read, next, failed]

theorem scsiTestUnitReady_answered {reply : Reply} (next : driver s.log.length = reply)
    (answered : reply.rc ≠ scsiRcFailed) :
    s.scsiTestUnitReady driver = (0, { s with log := s.log ++ [(.testUnitReady, reply.rc)] }) := by
  simp [scsiTestUnitReady, read, next, answered]

theorem retry_zero_rc (attempts : ℕ) : s.retry driver attempts 0 = (0, s) := by
  cases attempts <;> rfl

/-- The unit has failed all attempts, or it has answered one of them and failed those before. -/
theorem retry_cases (driver : ℕ → Reply) (attempts k : ℕ) (s : State) (length : s.log.length = 2 * k) :
    (∃ log, s.retry driver attempts (-1) = (-1, { s with log }) ∧
      ∀ i, k ≤ i → i < k + attempts → (driver (2 * i)).rc = scsiRcFailed) ∨
    ∃ a log, s.retry driver attempts (-1) = (0, { s with log }) ∧ (k ≤ a ∧ a < k + attempts) ∧
      (∀ i, k ≤ i → i < a → (driver (2 * i)).rc = scsiRcFailed) ∧ (driver (2 * a)).rc ≠ scsiRcFailed ∧
      log.length = 2 * a + 1 ∧ (.testUnitReady, (driver (2 * a)).rc) ∈ log ∧
      ∀ rc, (.testUnitReady, rc) ∈ log →
        (.testUnitReady, rc) ∈ s.log ∨ rc = scsiRcFailed ∨ rc = (driver (2 * a)).rc := by
  induction attempts generalizing k s with
  | zero => exact .inl ⟨s.log, rfl, fun i lower upper => by omega⟩
  | succ attempts ih =>
    have again : s.retry driver (attempts + 1) (-1) =
        (s.scsiTestUnitReady driver).2.retry driver attempts (s.scsiTestUnitReady driver).1 := rfl
    have next : driver s.log.length = driver (2 * k) := by rw [length]
    rw [again]
    by_cases failed : (driver (2 * k)).rc = scsiRcFailed
    · rw [scsiTestUnitReady_failed next failed]
      have later (i : ℕ) (lower : k ≤ i) (failedLater : k + 1 ≤ i → (driver (2 * i)).rc = scsiRcFailed) :
          (driver (2 * i)).rc = scsiRcFailed := by
        rcases lower.eq_or_lt with rfl | lower
        · exact failed
        · exact failedLater lower
      rcases ih (k + 1) { s with log := s.log ++ [(.testUnitReady, scsiRcFailed),
          (.requestSense, (driver (s.log.length + 1)).rc)] } (by simp [length]; omega) with
        ⟨log, ended, all⟩ | ⟨a, log, ended, ⟨lower, upper⟩, before, answered, more, here, entries⟩
      · exact .inl ⟨log, ended, fun i lower upper => later i lower fun lower => all i lower (by omega)⟩
      · refine .inr ⟨a, log, ended, ⟨by omega, by omega⟩, fun i lower upper => later i lower fun lower =>
          before i lower upper, answered, more, here, ?_⟩
        intro rc entry
        have entry := entries rc entry
        simp only [mem_append, mem_cons, Prod.mk.injEq, reduceCtorEq, false_and, not_mem_nil,
          or_false] at entry
        tauto
    · rw [scsiTestUnitReady_answered next failed, retry_zero_rc]
      refine .inr ⟨k, _, rfl, ⟨le_rfl, by omega⟩, fun i lower upper => by omega, failed, by simp [length], by simp, ?_⟩
      intro rc entry
      simp only [mem_append, mem_singleton, Prod.mk.injEq] at entry
      tauto

/-- The device has been allocated, and the lock is held. -/
def allocated (s : State) (ptr : ℕ) (heap : Heap) : State :=
  { s with heap, scsi := some ptr, blockSize := 0, totalBlockCount := 0, locked := true }

theorem spinlockAcquire_unlocked (unlocked : s.locked = false) :
    s.spinlockAcquire = some { s with locked := true } := by
  rw [spinlockAcquire, unlocked]
  rfl

theorem scsiInit_noMemory (unlocked : s.locked = false) (detached : s.scsi = none)
    (full : kzalloc s.heap scsiDevSize = some (none, s.heap)) :
    s.scsiInit driver = some (errNoMem, { s with blockSize := 0, totalBlockCount := 0 }) := by
  simp [scsiInit, spinlockAcquire, spinlockRelease, unlocked, detached, full]

theorem scsiInit_allocated (unlocked : s.locked = false) (detached : s.scsi = none) {ptr : ℕ} {heap : Heap}
    (found : kzalloc s.heap scsiDevSize = some (some ptr, heap)) :
    s.scsiInit driver =
      let (rc, s) := (s.allocated ptr heap).retry driver 21 (-1)
      if rc < 0 then s.scsiFree.bind fun s => some (errProto, s.spinlockRelease)
      else
        let (rc, s) := s.scsiReadCapacity driver
        if rc < 0 then s.spinlockRelease.scsiFree.bind fun s => some (errProto, s)
        else some (0, s.spinlockRelease) := by
  simp only [scsiInit, spinlockAcquire_unlocked unlocked, bind_eq_bind, bind_some, detached,
    found]
  rfl

theorem scsiFree_locked (held : s.locked = true) : s.scsiFree = none := by
  simp [scsiFree, spinlockAcquire, held]

theorem scsiFree_attached {ptr : ℕ} {live : List Block} (unlocked : s.locked = false) (attached : s.scsi = some ptr)
    (inv : Inv s.heap.table (⟨ptr, scsiDevSize, 0⟩ :: live)) :
    ∃ heap, s.scsiFree = some { s with heap, scsi := none } ∧ Inv heap.table live := by
  obtain ⟨heap, freed, inv'⟩ := kfree_spec inv
  refine ⟨heap, ?_, inv'⟩
  replace freed : kfree s.heap ptr = some heap := freed
  simp only [scsiFree, spinlockAcquire_unlocked unlocked, bind_eq_bind, bind_some]
  rw [attached]
  dsimp only
  rw [freed]
  simp [spinlockRelease, unlocked]

end State

def State.Answered (s : State) (opCode : OpCode) : Prop := (opCode, scsiRcGood) ∈ s.log

/-- The call returns with the lock free, and 0 only if the unit has answered both commands with GOOD: then the device
is attached. Otherwise there is no device, and the live blocks are those from before. -/
def AllOrNothing (driver : ℕ → Reply) (live : List Block) (s : State) : Prop :=
  ∃ rc s', s.scsiInit driver = some (rc, s') ∧ s'.locked = false ∧
    (rc = 0 → s'.Answered .testUnitReady ∧ s'.Answered .readCapacity10 ∧
      ∃ ptr, s'.scsi = some ptr ∧ Inv s'.heap.table (⟨ptr, scsiDevSize, 0⟩ :: live)) ∧
    (rc ≠ 0 → s'.scsi = none ∧ Inv s'.heap.table live)

/-- Some attempt is not failed, and is answered with GOOD, or the capacity cannot be read. -/
def AnswersWell (driver : ℕ → Reply) : Prop :=
  ∃ a ≤ 20, FirstAnswer driver a ∧
    ((driver (2 * a)).rc = scsiRcGood ∨ (driver (2 * a + 1)).rc ≠ scsiRcGood)

section

variable {driver : ℕ → Reply} {live : List Block} {s : State} {ptr : ℕ} {heap : Heap}

theorem firstAnswer_unique {a b : ℕ} (first : FirstAnswer driver a) (second : FirstAnswer driver b) : a = b := by
  rcases lt_trichotomy a b with less | same | more
  · exact absurd (second.1 a less) first.2
  · exact same
  · exact absurd (first.1 b more) second.2

/-- With an allocated device, the call ends well exactly for the units that answer well. -/
theorem allOrNothing_allocated (unlocked : s.locked = false) (detached : s.scsi = none) (fresh : s.log = [])
    (found : kzalloc s.heap scsiDevSize = some (some ptr, heap))
    (inv : Inv heap.table (⟨ptr, scsiDevSize, 0⟩ :: live)) : AllOrNothing driver live s ↔ AnswersWell driver := by
  have call : s.scsiInit driver = _ := State.scsiInit_allocated unlocked detached found
  rcases State.retry_cases driver 21 0 (s.allocated ptr heap) (by simp [State.allocated, fresh]) with
    ⟨log, ended, all⟩ | ⟨a, log, ended, ⟨-, upper⟩, before, answered, length, here, entries⟩
  · -- all attempts have failed: the lock is not given back before the device is freed
    rw [ended] at call
    have stuck : s.scsiInit driver = none := by
      rw [call]
      dsimp only
      rw [State.scsiFree_locked rfl]
      rfl
    refine iff_of_false ?_ ?_
    · rintro ⟨rc, s', returned, -⟩
      rw [stuck] at returned
      cases returned
    · rintro ⟨a, few, first, -⟩
      exact first.2 (all a (Nat.zero_le a) (by omega))
  · rw [ended] at call
    dsimp only at call
    rw [if_neg (by decide), State.scsiReadCapacity] at call
    simp only [State.read, length] at call
    have first : FirstAnswer driver a := ⟨fun i less => before i (Nat.zero_le i) less, answered⟩
    have well : AnswersWell driver ↔ (driver (2 * a)).rc = scsiRcGood ∨ (driver (2 * a + 1)).rc ≠ scsiRcGood := by
      constructor
      · rintro ⟨b, -, second, result⟩
        rwa [firstAnswer_unique first second]
      · exact fun result => ⟨a, by omega, first, result⟩
    rw [well]
    by_cases good : (driver (2 * a + 1)).rc = scsiRcGood
    · rw [if_neg (not_not.2 good)] at call
      have attached : AllOrNothing driver live s ↔ (driver (2 * a)).rc = scsiRcGood := by
        constructor
        · rintro ⟨rc, s', returned, -, zero, -⟩
          rw [call] at returned
          obtain ⟨rfl, rfl⟩ := Prod.mk.inj (some.inj returned)
          have ready : (OpCode.testUnitReady, scsiRcGood) ∈ log ++ [(.readCapacity10, (driver (2 * a + 1)).rc)] :=
            (zero rfl).1
          rw [mem_append] at ready
          have entry := ready.resolve_right (by simp)
          rcases entries scsiRcGood entry with earlier | failed | same
          · have none : (OpCode.testUnitReady, scsiRcGood) ∈ s.log := earlier
            rw [fresh] at none
            cases none
          · exact absurd failed (by decide)
          · exact same.symm
        · intro ready
          refine ⟨0, _, call, rfl, fun _ => ⟨?_, ?_, ptr, rfl, inv⟩, fun nonzero => absurd rfl nonzero⟩
          · rw [ready] at here
            exact mem_append_left _ here
          · rw [good]
            exact mem_append_right _ (mem_singleton.2 rfl)
      rw [attached, or_iff_left (not_not.2 good)]
    · rw [if_pos good] at call
      dsimp only at call
      rw [if_pos (by decide)] at call
      have released := State.scsiFree_attached (s := State.spinlockRelease { s.allocated ptr heap with
        log := log ++ [(.readCapacity10, (driver (2 * a + 1)).rc)] }) rfl rfl inv
      obtain ⟨heap', freed, inv'⟩ := released
      rw [freed] at call
      refine iff_of_true ⟨errProto, _, call, rfl, fun zero => absurd zero (by decide), fun _ => ⟨rfl, inv'⟩⟩ (.inr good)

/-- Attaching a device is all or nothing exactly when there is no memory for it, or when the unit answers well. -/
theorem scsi_init_all_or_nothing_iff (inv : Inv s.heap.table live) (unlocked : s.locked = false)
    (detached : s.scsi = none) (fresh : s.log = []) :
    AllOrNothing driver live s ↔ kzalloc s.heap scsiDevSize = some (none, s.heap) ∨ AnswersWell driver := by
  have alloc : kzallocAlign s.heap scsiDevSize 0 = some (none, s.heap) ∧ _ ∨ _ :=
    kzallocAlign_spec inv fun _ _ => .inl rfl
  rcases alloc with ⟨full, -⟩ | ⟨chunk, heap, found, -, inv'⟩
  · refine iff_of_true ?_ (.inl full)
    exact ⟨errNoMem, _, State.scsiInit_noMemory unlocked detached full, unlocked, fun zero => absurd zero (by decide),
      fun _ => ⟨detached, inv⟩⟩
  · have memory : kzalloc s.heap scsiDevSize ≠ some (none, s.heap) := by
      unfold kzalloc
      rw [found]
      simp
    rw [allOrNothing_allocated unlocked detached fresh found inv', or_iff_right memory]

end

def steadyUnit (rc : ℤ) (_ : ℕ) : Reply := ⟨rc, 0, 0⟩

/-- A unit to which the first command is not transferred. -/
def deafUnit (call : ℕ) : Reply := if call = 0 then ⟨-3, 0, 0⟩ else ⟨scsiRcGood, 0, 0⟩

def booted : State :=
  ⟨allocatorInit ⟨⟨fun _ => true, fun _ => 0, fun _ => 0⟩, fun _ => 0#8⟩, none, 0, 0, false, []⟩

theorem allOrNothing_good_unit :
    (steadyUnit scsiRcGood 0).rc = scsiRcGood ∧ AllOrNothing (steadyUnit scsiRcGood) [] booted :=
  ⟨rfl, (scsi_init_all_or_nothing_iff (inv_init rfl) rfl rfl rfl).2
    (.inr ⟨0, by decide, ⟨nofun, by decide⟩, .inl rfl⟩)⟩

theorem booted_deafUnit :
    (booted.scsiInit deafUnit).map (fun result => (result.1, result.2.log)) =
      some (0, [(.testUnitReady, -3), (.readCapacity10, scsiRcGood)]) := by decide

/-- A unit that fails all attempts makes the call wait for its own lock, and one never asked whether it is ready is
attached. -/
theorem failing_unit_blocks :
    booted.scsiInit (steadyUnit scsiRcFailed) = none ∧ ¬AllOrNothing (steadyUnit scsiRcFailed) [] booted ∧
      ¬AllOrNothing deafUnit [] booted := by
  have stuck : booted.scsiInit (steadyUnit scsiRcFailed) = none := by decide
  refine ⟨stuck, ?_, ?_⟩
  · rintro ⟨rc, s', returned, -⟩
    rw [stuck] at returned
    cases returned
  · rintro ⟨rc, s', returned, -, zero, -⟩
    have result := booted_deafUnit
    rw [returned] at result
    obtain ⟨rcZero, log⟩ := Prod.mk.inj (some.inj result)
    have ready : (OpCode.testUnitReady, scsiRcGood) ∈ s'.log := (zero rcZero).1
    rw [log] at ready
    revert ready
    decide

end MicroOs.Scsi
