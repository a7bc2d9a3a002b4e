import MicroOs.Libc.Bounded

/-! # Printing without a bound

`vsprintf` is `vsnprintf` with a buffer of `INT_MAX` bytes. For a buffer in the upper half of the address space, the end
of so many bytes is a word that comes round to an address below the buffer. Then no character is in front of the end:
nothing but the terminator is stored. In the lower half the two agree for every output that `INT_MAX` bytes can hold.

What a call stores depends on the format and the arguments only through the characters that `vfprintf` puts and the way
it ends. The results here are about any such output, so they cover the conversions of floating point numbers too.
-/

namespace MicroOs.Libc

open Function

/-- `vsprintf`, given what `vfprintf` puts and how it ends: it calls `vsnprintf` with `INT_MAX`. -/
def vsprintfOf (output : List Byte × Status) (buf : BitVec 32) : Option (Output × ℤ) :=
  vsnprintfOf output buf (BitVec.ofNat 32 intMax)

def vsprintf (memory : Memory) (buf : BitVec 32) (format : List Byte) (args : ℕ) : Option (Output × ℤ) :=
  vsprintfOf (vfprintf memory format args) buf

/-- What the caller sees: the bytes stored and the count. -/
def outcome (result : Output × ℤ) : (BitVec 32 → Option Byte) × ℤ := (result.1.stored, result.2)

/-- The unbounded call does what the bounded one does with any size that holds the output and its terminator. -/
def Agrees (output : List Byte × Status) (buf : BitVec 32) : Prop :=
  ∀ n : BitVec 32, output.1.length < n.toNat → buf.toNat + n.toNat < 2 ^ 32 →
    (vsprintfOf output buf).map outcome = (vsnprintfOf output buf n).map outcome

section

variable {chars : List Byte} {status : Status} {buf n : BitVec 32}

/-- The characters in front of an end. -/
def inFront (chars : List Byte) (buf stop : ℕ) (address : BitVec 32) : Option Byte :=
  if buf ≤ address.toNat ∧ address.toNat < stop ∧ address.toNat < buf + chars.length then chars[address.toNat - buf]?
  else none

theorem stored_put (here : buf ≠ 0) (fits : buf.toNat + chars.length ≤ 2 ^ 32) (n : BitVec 32) :
    (Output.put { file := fileInitStringIo buf n } chars).stored = inFront chars buf.toNat (buf + n).toNat := by
  funext address
  obtain ⟨start, ending⟩ := fileInitStringIo_of_ne (n := n) here
  rw [Output.put_stored _ _ (by rwa [start]), start, ending]
  rfl

theorem inFront_all {stop stop' : ℕ} (behind : buf.toNat + chars.length ≤ stop)
    (behind' : buf.toNat + chars.length ≤ stop') : inFront chars buf.toNat stop = inFront chars buf.toNat stop' := by
  funext address
  refine if_congr ?_ rfl rfl
  omega

theorem inFront_none (chars : List Byte) {stop : ℕ} (below : stop ≤ buf.toNat) (address : BitVec 32) :
    inFront chars buf.toNat stop address = none := if_neg (by omega)

theorem inFront_add {stop i : ℕ} (more : i < chars.length) (room : buf.toNat + i < stop)
    (fits : buf.toNat + chars.length ≤ 2 ^ 32) : inFront chars buf.toNat stop (buf + BitVec.ofNat 32 i) ≠ none := by
  have place : (buf + BitVec.ofNat 32 i).toNat = buf.toNat + i := by bv_omega
  rw [inFront, place, if_pos ⟨by omega, room, by omega⟩]
  simpa using more

theorem inFront_behind (chars : List Byte) {stop i : ℕ} (behind : stop ≤ buf.toNat + i)
    (fits : buf.toNat + i < 2 ^ 32) : inFront chars buf.toNat stop (buf + BitVec.ofNat 32 i) = none := by
  have place : (buf + BitVec.ofNat 32 i).toNat = buf.toNat + i := by bv_omega
  rw [inFront, if_neg (by omega)]

theorem inFront_last (stop : ℕ) (fits : buf.toNat + chars.length < 2 ^ 32) :
    inFront chars buf.toNat stop (buf + BitVec.ofNat 32 chars.length) = none := by
  have place : (buf + BitVec.ofNat 32 chars.length).toNat = buf.toNat + chars.length := by bv_omega
  rw [inFront, if_neg (by omega)]

theorem end_low (low : buf.toNat ≤ 2 ^ 31) : (buf + BitVec.ofNat 32 intMax).toNat = buf.toNat + intMax := by
  unfold intMax
  bv_omega

theorem toNat_intMax : (BitVec.ofNat 32 intMax).toNat = intMax := by decide

theorem end_high (high : 2 ^ 31 < buf.toNat) : (buf + BitVec.ofNat 32 intMax).toNat ≤ buf.toNat := by
  unfold intMax
  bv_omega

theorem outcome_failed (here : buf ≠ 0) (fits : buf.toNat + chars.length ≤ 2 ^ 32) (code : ℤ) (n : BitVec 32) :
    (vsnprintfOf (chars, .failed code) buf n).map outcome =
      some (inFront chars buf.toNat (buf + n).toNat, code) := by
  rw [← stored_put here fits]
  rfl

theorem outcome_long (here : buf ≠ 0) (fits : buf.toNat + chars.length ≤ 2 ^ 32) (long : 2 ^ 31 ≤ chars.length)
    (n : BitVec 32) :
    (vsnprintfOf (chars, .done) buf n).map outcome =
      some (inFront chars buf.toNat (buf + n).toNat, (BitVec.ofNat 32 chars.length).toInt) := by
  have negative : (BitVec.ofNat 32 chars.length).toInt < 0 := by
    rw [BitVec.toInt_neg_iff, BitVec.toNat_ofNat]
    have : 0 < buf.toNat := by bv_omega
    omega
  simp only [vsnprintfOf_done, negative, ← stored_put here fits]
  rfl

theorem outcome_short (here : buf ≠ 0) (fits : buf.toNat + chars.length ≤ 2 ^ 32) (short : chars.length < 2 ^ 31)
    (some : n ≠ 0) :
    (vsnprintfOf (chars, .done) buf n).map outcome =
      Option.some (update (inFront chars buf.toNat (buf + n).toNat)
        (buf + BitVec.ofNat 32 (min (n.toNat - 1) chars.length)) (Option.some 0), (chars.length : ℤ)) := by
  rw [vsnprintfOf_short short, Option.map_some, outcome]
  congr 2
  funext address
  rw [terminate_stored, stored_put here fits, update_apply]
  simp only [some, ne_eq, not_false_eq_true, true_and]

/-- The unbounded call has room for the output. -/
def HasRoom (output : List Byte × Status) (buf : BitVec 32) : Prop :=
  buf.toNat ≤ 2 ^ 31 ∧ (output.1.length < intMax ∨ output.1.length = intMax ∧ output.2 ≠ .done)

instance (output : List Byte × Status) (buf : BitVec 32) : Decidable (HasRoom output buf) :=
  inferInstanceAs (Decidable (_ ∧ _))

theorem inFront_enough (low : buf.toNat ≤ 2 ^ 31) (room : chars.length ≤ intMax) (enough : chars.length < n.toNat)
    (object : buf.toNat + n.toNat < 2 ^ 32) :
    inFront chars buf.toNat (buf + BitVec.ofNat 32 intMax).toNat = inFront chars buf.toNat (buf + n).toNat :=
  inFront_all (by rw [end_low low]; omega) (by bv_omega)

theorem agrees_of_room (here : buf ≠ 0) (fits : buf.toNat + chars.length ≤ 2 ^ 32)
    (room : HasRoom (chars, status) buf) : Agrees (chars, status) buf := by
  intro n enough object
  obtain ⟨low, room⟩ := room
  dsimp only at enough room
  have same := inFront_enough low (by omega) enough object
  unfold vsprintfOf
  cases status with
  | stuck => rfl
  | failed code => rw [outcome_failed here fits, outcome_failed here fits, same]
  | done =>
    have less : chars.length < intMax := room.resolve_right fun long => long.2 rfl
    have short : chars.length < 2 ^ 31 := by unfold intMax at less; omega
    have place : min (intMax - 1) chars.length = chars.length ∧ min (n.toNat - 1) chars.length = chars.length := by
      omega
    rw [outcome_short here fits short (by decide), outcome_short here fits short (by bv_omega), same, toNat_intMax,
      place.1, place.2]

theorem agrees_nil (here : buf ≠ 0) (status : Status) : Agrees ([], status) buf := by
  intro n enough object
  have fits : buf.toNat + ([] : List Byte).length ≤ 2 ^ 32 := by
    rw [List.length_nil]
    omega
  have same (stop stop' : ℕ) : inFront [] buf.toNat stop = inFront [] buf.toNat stop' := by
    funext address
    simp [inFront]
  unfold vsprintfOf
  cases status with
  | stuck => rfl
  | failed code => rw [outcome_failed here fits, outcome_failed here fits, same]
  | done =>
    have some : n ≠ 0 := by
      rintro rfl
      exact absurd enough (Nat.not_lt_zero _)
    rw [outcome_short here fits (by decide) (by decide), outcome_short here fits (by decide) some, same,
      List.length_nil, Nat.min_zero, Nat.min_zero]

/-- If the streams get the same characters, and some, then there is room for them. -/
theorem room_of_same (some : chars ≠ []) (enough : chars.length < n.toNat) (object : buf.toNat + n.toNat < 2 ^ 32)
    (same : ∀ i < chars.length, inFront chars buf.toNat (buf + BitVec.ofNat 32 intMax).toNat (buf + BitVec.ofNat 32 i) =
      inFront chars buf.toNat (buf + n).toNat (buf + BitVec.ofNat 32 i)) :
    buf.toNat ≤ 2 ^ 31 ∧ chars.length ≤ intMax := by
  have positive := List.length_pos_of_ne_nil some
  have ending : (buf + n).toNat = buf.toNat + n.toNat := by bv_omega
  have stored (i : ℕ) (more : i < chars.length) :
      inFront chars buf.toNat (buf + n).toNat (buf + BitVec.ofNat 32 i) ≠ none :=
    inFront_add more (by omega) (by omega)
  have low : buf.toNat ≤ 2 ^ 31 := by
    by_contra high
    have nothing := inFront_none chars (end_high (not_le.1 high)) (buf + BitVec.ofNat 32 0)
    exact stored 0 positive ((same 0 positive).symm.trans nothing)
  refine ⟨low, ?_⟩
  by_contra long
  have nothing := inFront_behind chars (i := intMax) (end_low low).le (by omega)
  exact stored intMax (by omega) ((same intMax (by omega)).symm.trans nothing)

theorem room_of_agrees (here : buf ≠ 0) (fits : buf.toNat + chars.length + 1 < 2 ^ 32) (some : chars ≠ [])
    (ends : status ≠ .stuck) (agrees : Agrees (chars, status) buf) : HasRoom (chars, status) buf := by
  have size : (BitVec.ofNat 32 (chars.length + 1)).toNat = chars.length + 1 := by
    rw [BitVec.toNat_ofNat]
    omega
  generalize BitVec.ofNat 32 (chars.length + 1) = n at size
  have enough : chars.length < n.toNat := by omega
  have object : buf.toNat + n.toNat < 2 ^ 32 := by omega
  have equal := agrees n enough object
  unfold vsprintfOf at equal
  have positive := List.length_pos_of_ne_nil some
  cases status with
  | stuck => exact absurd rfl ends
  | failed code =>
    rw [outcome_failed here (by omega), outcome_failed here (by omega)] at equal
    have same := (Prod.mk.inj (Option.some.inj equal)).1
    obtain ⟨low, room⟩ := room_of_same some enough object fun i _ => congrFun same _
    refine ⟨low, ?_⟩
    rcases room.lt_or_eq with less | full
    · exact .inl less
    · exact .inr ⟨full, nofun⟩
  | done =>
    rcases lt_or_ge chars.length (2 ^ 31) with short | long
    · rw [outcome_short here (by omega) short (by decide), outcome_short here (by omega) short (by bv_omega)] at equal
      have same := (Prod.mk.inj (Option.some.inj equal)).1
      have last : min (n.toNat - 1) chars.length = chars.length := by omega
      rw [toNat_intMax, last] at same
      -- the terminator is behind the output only if the output is shorter than `INT_MAX`
      have less : chars.length < intMax := by
        by_contra long
        have behind := congrFun same (buf + BitVec.ofNat 32 chars.length)
        rw [update_self, update_of_ne (by bv_omega), inFront_last _ (by omega)] at behind
        cases behind
      refine ⟨(room_of_same some enough object fun i more => ?_).1, .inl less⟩
      have here := congrFun same (buf + BitVec.ofNat 32 i)
      rwa [update_of_ne (by bv_omega), update_of_ne (by bv_omega)] at here
    · rw [outcome_long here (by omega) long, outcome_long here (by omega) long] at equal
      have same := (Prod.mk.inj (Option.some.inj equal)).1
      obtain ⟨-, room⟩ := room_of_same some enough object fun i _ => congrFun same _
      unfold intMax at room
      omega

/-- The unbounded call agrees with the bounded ones exactly when there is nothing to store, when it has room, or when
no buffer with an end holds the output. -/
theorem vsprintf_agrees_iff {output : List Byte × Status} (ends : output.2 ≠ .stuck) (here : buf ≠ 0)
    (fits : buf.toNat + output.1.length + 1 ≤ 2 ^ 32) :
    Agrees output buf ↔ output.1 = [] ∨ HasRoom output buf ∨ buf.toNat + output.1.length + 1 = 2 ^ 32 := by
  obtain ⟨chars, status⟩ := output
  dsimp only at fits ⊢
  constructor
  · intro agrees
    by_contra other
    simp only [not_or] at other
    obtain ⟨some, noRoom, object⟩ := other
    exact noRoom (room_of_agrees here (by omega) some ends agrees)
  · rintro (rfl | room | full)
    · exact agrees_nil here status
    · exact agrees_of_room here (by omega) room
    · intro n enough object
      dsimp only at enough
      omega

/-- A number printed to a buffer of the kernel. -/
theorem agrees_kernel_buffer : Agrees (vfprintf (fun _ => 0) cutFormat 0) 0x20000 :=
  (vsprintf_agrees_iff (by decide +kernel) (by decide) (by decide +kernel)).mpr (.inr (.inl (by decide +kernel)))

end

/-- A letter printed to a buffer on the stack of a process is not stored: only the terminator behind it is. -/
theorem stack_buffer_stays_empty :
    (0xeffffe00#32).toNat + (vfprintf (fun _ => 0) [ascii 'A'] 0).1.length + 1 ≤ 2 ^ 32 ∧
      ¬Agrees (vfprintf (fun _ => 0) [ascii 'A'] 0) 0xeffffe00#32 ∧
      (vsprintf (fun _ => 0) 0xeffffe00#32 [ascii 'A'] 0).map
        (fun result => (result.1.stored 0xeffffe00#32, result.1.stored 0xeffffe01#32, result.2)) =
          some (none, some 0, 1) := by
  refine ⟨by decide +kernel, ?_, by decide +kernel⟩
  intro agrees
  have same := congrArg (Option.map fun result => result.1 0xeffffe00#32) (agrees 2 (by decide +kernel) (by decide))
  exact absurd same (by decide +kernel)

end MicroOs.Libc
