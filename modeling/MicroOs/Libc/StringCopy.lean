import MicroOs.Library.MachineInt
import MicroOs.Library.ReadTrace
import MicroOs.Libc.StringCore

/-! # Copying a string into a buffer of a given size

`strlcpy` of `util.c` copies in one loop and counts what is left of the source in a second one. Both walk along the
source with the same pointer, and every read of it is recorded.

The first loop stops at the limit with the pointer at the next character, or at the terminator with the pointer behind
it. In the second case the other loop reads on behind the source.
-/

namespace MicroOs.Libc

open List Reading

/-- The loop that copies, where `limit` is what `--size` still has above 0. -/
def copyLimited : ℕ → Memory → ℕ → ℕ → ℤ → Reading ℕ (Memory × ℕ × ℕ × ℤ)
  | 0, memory, dest, src, n => pure (memory, dest, src, n)
  | limit + 1, memory, dest, src, n => do
    let ch ← Reading.read memory src
    let memory := memory.writeByte dest ch
    if ch ≠ 0 then copyLimited limit memory (dest + 1) (src + 1) (wrap (n + 1))
    else pure (memory, dest + 1, src + 1, n)

/-- The loop that counts the characters left, with the rounds left for it. -/
def countRest (memory : Memory) : ℕ → ℕ → ℤ → Reading ℕ ℤ
  | 0, _, _ => Reading.never
  | rounds + 1, src, m => do
    let ch ← Reading.read memory src
    if ch ≠ 0 then countRest memory rounds (src + 1) (wrap (m + 1)) else pure m

def strlcpy (memory : Memory) (dest src : ℕ) (size : ℤ) : Reading ℕ (Memory × ℤ) := do
  let (memory, dest, src, n) ← copyLimited (size - 1).toNat memory dest src 0
  let memory := memory.writeByte dest 0
  let m ← countRest memory (2 ^ 32) src 0
  pure (memory, wrap (n + m))

variable {memory memory' : Memory} {dest src limit rounds : ℕ} {chars : List (BitVec 8)} {n m size : ℤ}

/-- The addresses from the first character of a string to its terminator. -/
def Within (src : ℕ) (chars : List (BitVec 8)) (address : ℕ) : Prop := src ≤ address ∧ address ≤ src + chars.length

theorem Within.of_tail {ch : BitVec 8} {address : ℕ} (within : Within (src + 1) chars address) :
    Within src (ch :: chars) address := by
  have length : (ch :: chars).length = chars.length + 1 := length_cons
  obtain ⟨lower, upper⟩ := within
  exact ⟨by omega, by omega⟩

theorem within_first : Within src chars src := ⟨le_rfl, Nat.le_add_right src _⟩

theorem copyLimited_returns (present : memory.HasString src chars)
    (restrict : dest + min limit chars.length < src ∨ src + chars.length < dest) :
    ∃ memory', Copied memory memory' dest limit chars ∧
      Reading.Returns (copyLimited limit memory dest src (wrap n)) (Within src chars)
        (memory', dest + min limit (chars.length + 1), src + min limit (chars.length + 1),
          wrap (n + (min limit chars.length : ℕ))) := by
  induction limit generalizing memory dest src chars n with
  | zero =>
    refine ⟨memory, ⟨by rw [take_zero]; trivial, ?_, fun _ _ => rfl⟩, ?_⟩
    · rw [if_neg (Nat.not_lt_zero _)]
    · rw [Nat.zero_min, Nat.zero_min, Nat.add_zero, Nat.cast_zero, Int.add_zero]
      exact returns_pure _
  | succ limit ih =>
    have reads : Reading.Returns (read memory src) (Within src chars) (memory src) :=
      returns_read memory within_first
    cases chars with
    | nil =>
      have zero : memory src = 0 := present
      refine ⟨memory.writeByte dest 0, copied_nil, reads.bind ?_⟩
      rw [zero]
      simp only [length_nil, Nat.min_zero, Nat.cast_zero, Int.add_zero, Nat.min_eq_right (Nat.succ_pos limit)]
      exact returns_pure _
    | cons ch chars =>
      obtain ⟨⟨first, nonzero⟩, rest⟩ := present
      rw [length_cons] at restrict
      have apart : ∀ i ≤ chars.length, memory.writeByte dest ch (src + 1 + i) = memory (src + 1 + i) :=
        fun i le => memory.writeByte_ne ch (by omega)
      obtain ⟨memory', copied, returns⟩ := @ih (memory.writeByte dest ch) (dest + 1) (src + 1) chars (n + 1)
        (rest.congr apart) (by omega)
      refine ⟨memory', copied.cons nonzero, reads.bind ?_⟩
      have shift : ∀ a : ℕ, a + 1 + min limit (chars.length + 1) = a + (min limit (chars.length + 1) + 1) := by omega
      have value : n + (min limit chars.length + 1 : ℕ) = n + 1 + (min limit chars.length : ℕ) := by omega
      rw [first, if_pos nonzero, length_cons, Nat.add_min_add_right, Nat.add_min_add_right, wrap_wrap_add, value]
      rw [shift, shift] at returns
      exact returns.mono fun _ => Within.of_tail

theorem countRest_returns (present : memory.HasString src chars) (enough : chars.length < rounds) :
    Reading.Returns (countRest memory rounds src (wrap m)) (Within src chars) (wrap (m + chars.length)) := by
  induction rounds generalizing chars src m with
  | zero => cases enough
  | succ rounds ih =>
    cases chars with
    | nil =>
      have zero : memory src = 0 := present
      refine (returns_read memory within_first).bind ?_
      rw [zero, length_nil, Nat.cast_zero, Int.add_zero]
      exact returns_pure _
    | cons ch chars =>
      obtain ⟨⟨first, nonzero⟩, rest⟩ := present
      refine (returns_read memory within_first).bind ?_
      have value : m + (chars.length + 1 : ℕ) = m + 1 + chars.length := by omega
      rw [first, if_pos nonzero, wrap_wrap_add, length_cons, value]
      exact (ih rest (Nat.lt_of_succ_lt_succ enough)).mono fun _ => Within.of_tail

theorem keeps_countRest (memory : Memory) (rounds src : ℕ) (m : ℤ) : Reading.Keeps (countRest memory rounds src m) := by
  induction rounds generalizing src m with
  | zero => exact keeps_never
  | succ rounds ih =>
    refine (keeps_read memory src).bind fun ch => ?_
    by_cases more : ch ≠ 0
    · rw [if_pos more]
      exact ih _ _
    · rw [if_neg more]
      exact keeps_pure m

/-- What `strlcpy` is for: the string as far as it fits, no byte changed outside of the buffer or read behind the
source, and the length of the source. -/
def StoresString (memory : Memory) (dest src : ℕ) (size : ℤ) (chars : List (BitVec 8)) : Prop :=
  ∃ memory', Reading.Returns (strlcpy memory dest src size) (Within src chars) (memory', (chars.length : ℤ)) ∧
    memory'.HasString dest (chars.take (size - 1).toNat) ∧
      ∀ address : ℕ, address < dest ∨ dest + size ≤ address → memory' address = memory address

section

variable (source : StringAt memory src chars) (apart : dest + limit < src ∨ src + chars.length < dest)

include source apart

/-- What `strlcpy` has done when it comes to the second loop. -/
theorem strlcpy_reaches : ∃ memory', Copied memory memory' dest limit chars ∧
    Reading.Reaches (strlcpy memory dest src (limit + 1))
      (do
        let m ← countRest (memory'.writeByte (dest + min limit (chars.length + 1)) 0) (2 ^ 32)
          (src + min limit (chars.length + 1)) 0
        pure (memory'.writeByte (dest + min limit (chars.length + 1)) 0, wrap (wrap (min limit chars.length : ℕ) + m)))
      (Within src chars) := by
  have copies : ∃ memory', Copied memory memory' dest limit chars ∧
      Reading.Returns (copyLimited limit memory dest src (wrap 0)) (Within src chars)
        (memory', dest + min limit (chars.length + 1), src + min limit (chars.length + 1),
          wrap (0 + (min limit chars.length : ℕ))) := copyLimited_returns source.present (by omega)
  obtain ⟨memory', copied, returns⟩ := copies
  refine ⟨memory', copied, ?_⟩
  have limits : ((limit : ℤ) + 1 - 1).toNat = limit := by omega
  rw [Int.zero_add] at returns
  rw [strlcpy, limits]
  exact returns.reaches _

theorem strlcpy_cut (cut : limit ≤ chars.length) : ∃ memory',
    Reading.Returns (strlcpy memory dest src (limit + 1)) (Within src chars) (memory', wrap chars.length) ∧
      memory'.HasString dest (chars.take limit) ∧
        ∀ address, address < dest ∨ dest + limit < address → memory' address = memory address := by
  obtain ⟨memory', copied, reaches⟩ := strlcpy_reaches source apart
  rw [min_eq_left (cut.trans (Nat.le_succ _)), min_eq_left cut] at reaches
  have others : ∀ address, address < dest ∨ dest + limit < address →
      memory'.writeByte (dest + limit) 0 address = memory address := by
    intro address outside
    rw [memory'.writeByte_ne 0 (by omega)]
    exact copied.others address (by rwa [min_eq_left cut])
  have rest : (memory'.writeByte (dest + limit) 0).HasString (src + limit) (chars.drop limit) := by
    refine (source.present.drop cut).congr fun i le => others _ ?_
    rw [length_drop] at le
    omega
  refine ⟨memory'.writeByte (dest + limit) 0, reaches.trans ?_, ?_, others⟩
  · have enough : (chars.drop limit).length < 2 ^ 32 := by
      have inside := source.inside
      rw [length_drop]
      omega
    have counted : Reading.Returns (countRest (memory'.writeByte (dest + limit) 0) (2 ^ 32) (src + limit) (wrap 0))
        (Within (src + limit) (chars.drop limit)) (wrap (0 + (chars.drop limit).length)) :=
      countRest_returns rest enough
    have inside : ∀ address, Within (src + limit) (chars.drop limit) address → Within src chars address := by
      rintro address ⟨lower, upper⟩
      rw [length_drop] at upper
      exact ⟨by omega, by omega⟩
    refine (counted.mono inside).bind ?_
    have total : wrap (wrap (limit : ℤ) + wrap (0 + (chars.drop limit).length)) = wrap chars.length := by
      rw [wrap_wrap_add, wrap_add_wrap, length_drop]
      congr 1
      omega
    rw [total]
    exact returns_pure _
  · rw [Memory.hasString_iff, length_take, min_eq_left cut, memory'.writeByte_same]
    refine ⟨copied.text.congr fun i less => memory'.writeByte_ne 0 ?_, rfl⟩
    rw [length_take] at less
    omega

theorem strlcpy_whole (whole : chars.length < limit) (result : Memory × ℤ) :
    ¬Reading.Returns (strlcpy memory dest src (limit + 1)) (Within src chars) result := by
  obtain ⟨memory', -, reaches⟩ := strlcpy_reaches source apart
  rw [min_eq_right (Nat.succ_le_of_lt whole)] at reaches
  have outside : ¬Within src chars (src + (chars.length + 1)) := by
    rintro ⟨-, upper⟩
    omega
  have rounds : 2 ^ 32 = (2 ^ 32 - 1) + 1 := rfl
  rw [rounds, countRest, bind_assoc] at reaches
  refine not_returns_of_reaches (fun ch => Reading.Keeps.bind ?_ fun m => keeps_pure _) reaches outside
  by_cases more : ch ≠ 0
  · rw [if_pos more]
    exact keeps_countRest _ _ _ _
  · rw [if_neg more]
    exact keeps_pure _

end

/-- `strlcpy` does what it should exactly if the first loop stops at the limit, for a length that an `int` can tell.
-/
theorem strlcpy_storesString_iff (source : StringAt memory src chars) (positive : 1 ≤ size) (int : size < 2 ^ 31)
    (apart : dest + size ≤ src ∨ src + chars.length < dest) :
    StoresString memory dest src size chars ↔ size ≤ chars.length + 1 ∧ chars.length < 2 ^ 31 := by
  obtain ⟨limit, rfl⟩ : ∃ limit : ℕ, size = limit + 1 := ⟨(size - 1).toNat, by omega⟩
  have limits : ((limit : ℤ) + 1 - 1).toNat = limit := by omega
  have apart' : dest + limit < src ∨ src + chars.length < dest := by omega
  have below : chars.length < 2 ^ 32 := by
    have inside := source.inside
    omega
  rw [StoresString, limits]
  by_cases cut : limit ≤ chars.length
  · obtain ⟨memory', returns, text, others⟩ := strlcpy_cut source apart' cut
    rw [and_iff_right (by omega), ← wrap_natCast_eq_iff below]
    constructor
    · rintro ⟨memory'', returns', -, -⟩
      exact (Prod.mk.inj (returns.unique returns')).2
    · intro kept
      rw [kept] at returns
      exact ⟨memory', returns, text, fun address outside => others address (by omega)⟩
  · refine iff_of_false ?_ (by omega)
    rintro ⟨memory', returns, -⟩
    exact strlcpy_whole source apart' (not_le.1 cut) _ returns

/-- One character of "bc" and the terminator fill a buffer of two bytes. -/
theorem strlcpy_two : StoresString buffers 8 16 2 [98, 99] :=
  (strlcpy_storesString_iff buffers_src (by decide) (by decide) (by decide)).2 (by decide)

/-- The byte 0 at 18 ends "bc", and "yz" is behind it. -/
def followed (address : ℕ) : BitVec 8 :=
  match address with
  | 16 => 98
  | 17 => 99
  | 19 => 121
  | 20 => 122
  | _ => 0

/-- With room for all of "bc", the length that is returned is that of "bc" and "yz" together. -/
theorem strlcpy_reads_behind :
    StringAt followed 16 [98, 99] ∧
      (∃ memory', strlcpy followed 8 16 4 [] = some ((memory', 4), [21, 20, 19, 18, 17, 16])) ∧
      ¬StoresString followed 8 16 4 [98, 99] := by
  have source : StringAt followed 16 [98, 99] := ⟨⟨⟨rfl, by decide⟩, ⟨rfl, by decide⟩, rfl⟩, by decide, by decide⟩
  refine ⟨source, ⟨_, rfl⟩, ?_⟩
  rintro ⟨memory', returns, -⟩
  obtain ⟨reads, same, inside⟩ := returns []
  cases same

end MicroOs.Libc
