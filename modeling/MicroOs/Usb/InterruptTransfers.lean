import MicroOs.Usb.TransferDescriptors
import Mathlib.Algebra.Ring.Parity

/-! # Interrupt transfers

A driver registers a handler for an interrupt pipe, with one descriptor that stays on the schedule. When the controller
signals that some transfer is complete, `uhci_interrupt` calls the handlers, advances the toggle bit of each pipe and
makes the descriptors active again.

The status that tells whether a transfer is still active is cut to 16 bits, which leaves none of its flags: every
transfer is taken for complete. And the toggle bit is put in bit 0 of the token. There it changes nothing, since the
identifier of IN packets is odd, and bit 19 stays cleared.
-/

namespace MicroOs.Uhci

open BitVec List

def uhciSsUsbInt : BitVec 16 := 1#16

def xferGetStatus (tds : List Td) : BitVec 32 :=
  tds.foldl (fun status td => status ||| td.controlStatus) 0#32 &&& uhciTdStatusMask

def tdReactivate (pipe : Pipe) (td : Td) : Td :=
  { td with
    controlStatus := td.controlStatus &&& ~~~uhciTdActlen &&& ~~~uhciTdStatusMask ||| uhciTdActiveBit
    token := td.token &&& ~~~uhciTdDataToggleBit ||| flag pipe.toggleBit }

/-- A registered handler, with its pipe, descriptor and link. It is remembered what was registered and how often the
handler was called, for complete transfers and for others. -/
structure Handler where
  pipe : Pipe
  vertLp : BitVec 32
  td : Td
  registered : Pipe
  built : Td
  completed : ℕ
  spurious : ℕ

def uhciRegisterInterruptH (pipe : Pipe) (size : ℕ) (buff : BitVec 32) (place : BitVec 28) : Handler :=
  let td := tdBuild pipe uhciTdPidIn size buff place
  { pipe, vertLp := td.address, td, registered := pipe, built := td, completed := 0, spurious := 0 }

def Td.Active (td : Td) : Prop := td.controlStatus &&& uhciTdActiveBit ≠ 0#32

instance (td : Td) : Decidable td.Active := inferInstanceAs (Decidable (_ ≠ _))

/-- What `uhci_interrupt` does for a handler. -/
def Handler.serve (h : Handler) : Handler :=
  let xferStatus : BitVec 16 := (xferGetStatus [h.td]).setWidth 16
  if xferStatus.setWidth 32 &&& uhciTdActiveBit ≠ 0#32 then h
  else
    let pipe := { h.pipe with toggleBit := !h.pipe.toggleBit }
    { h with
      pipe
      td := tdReactivate pipe h.td
      vertLp := h.td.address
      completed := if h.td.Active then h.completed else h.completed + 1
      spurious := if h.td.Active then h.spurious + 1 else h.spurious }

def uhciInterrupt (intStatus : BitVec 16) (handlers : List Handler) : List Handler :=
  if intStatus &&& uhciSsUsbInt ≠ 0#16 then handlers.map Handler.serve else handlers

inductive InterruptEvent
  | register (pipe : Pipe) (size : ℕ)
  | transfer (handler : ℕ) (controlStatus : BitVec 32)
  | interrupt (intStatus : BitVec 16)

/-- A handler is registered, the controller works on a descriptor, or it interrupts. -/
inductive InterruptStep : List Handler → InterruptEvent → List Handler → Prop
  | register {s : List Handler} {pipe : Pipe} {size : ℕ} (buff : BitVec 32) (place : BitVec 28) :
      InterruptStep s (.register pipe size) (s ++ [uhciRegisterInterruptH pipe size buff place])
  | transfer {before after : List Handler} {h : Handler} {controlStatus : BitVec 32} (vertLp : BitVec 32) :
      InterruptStep (before ++ h :: after) (.transfer before.length controlStatus)
        (before ++ { h with td := { h.td with controlStatus }, vertLp } :: after)
  | interrupt {s : List Handler} (intStatus : BitVec 16) :
      InterruptStep s (.interrupt intStatus) (uhciInterrupt intStatus s)

/-- The descriptor that is put back: for the next packet, and otherwise as it was built. -/
structure Reactivated (h : Handler) : Prop where
  toggle : h.td.decode.toggle = h.pipe.toggleBit
  count : h.pipe.toggleBit = not^[h.completed] h.registered.toggleBit
  scheduled : h.vertLp = h.td.address
  active : h.td.controlStatus &&& uhciTdStatusMask = uhciTdActiveBit
  empty : h.td.controlStatus &&& uhciTdActlen = 0#32
  packet : { h.td.decode with toggle := h.built.decode.toggle } = h.built.decode

/-- What all registered handlers have in common. -/
structure Known (h : Handler) : Prop where
  toggle : h.pipe.toggleBit = not^[h.completed + h.spurious] h.registered.toggleBit
  odd : h.td.token.getLsbD 0 = true
  token : ∀ i ≠ 19, h.td.token.getLsbD i = h.built.token.getLsbD i
  buffer : h.td.bufferPointer = h.built.bufferPointer

variable {h : Handler} {s s' : List Handler} {event : InterruptEvent} {events : List InterruptEvent}

theorem serve_eq : h.serve = { h with
    pipe := { h.pipe with toggleBit := !h.pipe.toggleBit }
    td := tdReactivate { h.pipe with toggleBit := !h.pipe.toggleBit } h.td
    vertLp := h.td.address
    completed := if h.td.Active then h.completed else h.completed + 1
    spurious := if h.td.Active then h.spurious + 1 else h.spurious } := by
  have cut : (xferGetStatus [h.td]).setWidth 16 = 0#16 := by
    rw [xferGetStatus, setWidth_and]
    exact and_zero
  rw [Handler.serve, cut]
  exact if_neg fun nonzero => nonzero rfl

theorem getLsbD_tdReactivate (pipe : Pipe) {td : Td} (odd : td.token.getLsbD 0 = true) (i : ℕ) :
    (tdReactivate pipe td).token.getLsbD i = (td.token.getLsbD i && decide (i ≠ 19)) := by
  have bit : uhciTdDataToggleBit = twoPow 32 19 := rfl
  simp only [tdReactivate, bit, getLsbD_or, getLsbD_and, getLsbD_not, getLsbD_twoPow, getLsbD_flag]
  grind

theorem Known.register (pipe : Pipe) (size : ℕ) (buff : BitVec 32) (place : BitVec 28) :
    Known (uhciRegisterInterruptH pipe size buff place) where
  toggle := rfl
  odd := by simp [uhciRegisterInterruptH, tdBuild, uhciTdPidIn]
  token _ _ := rfl
  buffer := rfl

theorem Handler.serve_calls (h : Handler) : h.serve.completed + h.serve.spurious = h.completed + h.spurious + 1 := by
  rw [serve_eq]
  dsimp only
  split_ifs
  · omega
  · omega

theorem Known.serve (known : Known h) : Known h.serve := by
  have calls := h.serve_calls
  rw [serve_eq] at calls ⊢
  refine ⟨?_, ?_, ?_, known.buffer⟩
  · rw [calls, Function.iterate_succ_apply', ← known.toggle]
  · rw [getLsbD_tdReactivate _ known.odd, known.odd]
    rfl
  · intro i other
    rw [getLsbD_tdReactivate _ known.odd, known.token i other]
    simp [other]

/-- The toggle bit counts the calls of the handler, and of the token only bit 19 changes. -/
theorem Known.step (known : ∀ h ∈ s, Known h) (step : InterruptStep s event s') : ∀ h ∈ s', Known h := by
  cases step with
  | register buff place =>
    exact forall_mem_append.2 ⟨known, forall_mem_singleton.2 (.register ..)⟩
  | @transfer before after h controlStatus vertLp =>
    obtain ⟨first, rest⟩ := forall_mem_append.1 known
    obtain ⟨own, rest⟩ := forall_mem_cons.1 rest
    exact forall_mem_append.2 ⟨first, forall_mem_cons.2 ⟨⟨own.1, own.2, own.3, own.4⟩, rest⟩⟩
  | interrupt intStatus =>
    rw [uhciInterrupt]
    split
    · exact forall_mem_map.2 fun h member => (known h member).serve
    · exact known

theorem iterate_not_add (m n : ℕ) (b : Bool) : not^[m + n] b = not^[m] b ↔ Even n := by
  rw [Function.iterate_add_apply, (Bool.involutive_not.injective.iterate m).eq_iff]
  rcases Nat.even_or_odd n with even | odd
  · rw [Bool.involutive_not.iterate_even even]
    exact iff_of_true rfl even
  · rw [Bool.involutive_not.iterate_odd odd]
    exact iff_of_false (Bool.not_ne_self b) (Nat.not_even_iff_odd.2 odd)

theorem replaced_and {w : ℕ} (x mask y : BitVec w) : (x &&& ~~~mask ||| y) &&& mask = y &&& mask := by
  ext i bound
  simp only [getElem_and, getElem_or, getElem_not]
  cases mask[i] <;> simp

theorem decode_congr {td built : Td} (token : ∀ i ≠ 19, td.token.getLsbD i = built.token.getLsbD i)
    (buffer : td.bufferPointer = built.bufferPointer) :
    { td.decode with toggle := built.decode.toggle } = built.decode := by
  have field (start len : ℕ) (apart : 19 < start ∨ start + len ≤ 19) :
      td.token.extractLsb' start len = built.token.extractLsb' start len := by
    ext i bound
    rw [getElem_extractLsb', getElem_extractLsb']
    exact token _ (by omega)
  simp only [Td.decode, buffer, field 0 8 (by decide), field 8 7 (by decide), field 15 4 (by decide),
    field 21 11 (by decide)]

/-- A descriptor is put back as it should be exactly if the bit that was due is 0 and the transfer was taken for
complete an even number of times too often. -/
theorem reactivated_iff (run : Run InterruptStep [] events s) (member : h ∈ s) :
    Reactivated h.serve ↔ h.pipe.toggleBit = true ∧ Even h.serve.spurious := by
  have all : ∀ h ∈ s, Known h := run.invariant (∀ h ∈ ·, Known h) Known.step (forall_mem_nil _)
  have known := all h member
  have after := known.serve
  have cleared : h.serve.td.decode.toggle = false := by
    rw [serve_eq]
    exact (getLsbD_tdReactivate _ known.odd 19).trans (Bool.and_false _)
  have toggled : h.serve.pipe.toggleBit = !h.pipe.toggleBit := by rw [serve_eq]
  constructor
  · intro reactivated
    have toggle := reactivated.toggle
    rw [cleared, toggled] at toggle
    refine ⟨by simpa using toggle, ?_⟩
    rw [← iterate_not_add, ← after.toggle]
    exact reactivated.count
  · rintro ⟨one, even⟩
    refine ⟨?_, ?_, ?_, ?_, ?_, decode_congr after.token after.buffer⟩
    · rw [cleared, toggled, one]
      rfl
    · rw [after.toggle]
      exact (iterate_not_add ..).2 even
    · rw [serve_eq]
      rfl
    · rw [serve_eq]
      exact replaced_and ..
    · rw [serve_eq]
      simp only [tdReactivate]
      rw [BitVec.and_assoc, BitVec.and_comm (~~~uhciTdActlen), ← BitVec.and_assoc]
      exact replaced_and ..

def keyboard (toggleBit : Bool) : Pipe := ⟨true, 1#8, 1#8, usbPipeInterrupt, 8#16, toggleBit⟩

/-- The bit that is due is 0. -/
theorem reactivated_zero : ∃ h, Run InterruptStep [] [.register (keyboard true) 8, .transfer 0 7#32] [h] ∧
    Reactivated h.serve := by
  have run : Run InterruptStep [] [.register (keyboard true) 8, .transfer 0 7#32] [_] :=
    (Run.single (.register 0#32 0#28)).snoc (@InterruptStep.transfer [] [] _ 7#32 uhciLpTerminate)
  exact ⟨_, run, (reactivated_iff run (mem_singleton.2 rfl)).2 ⟨rfl, 0, rfl⟩⟩

/-- The first transfer of a pipe that begins with 0 is complete: 1 is due, and the descriptor has 0. -/
theorem reactivated_wrong_toggle : ∃ h, Run InterruptStep [] [.register (keyboard false) 8, .transfer 0 7#32] [h] ∧
    h.serve.completed = 1 ∧ h.serve.pipe.toggleBit = true ∧ h.serve.td.decode.toggle = false :=
  ⟨_, (Run.single (.register 0#32 0#28)).snoc (@InterruptStep.transfer [] [] _ 7#32 uhciLpTerminate), rfl, rfl, rfl⟩

end MicroOs.Uhci
