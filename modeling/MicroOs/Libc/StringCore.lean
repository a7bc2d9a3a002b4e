import MicroOs.Library.CString

/-! # Copying, concatenating and comparing

The functions of `string_core.c` that copy bytes, that append one string to another and that compare strings. Pointers
are addresses in one memory, and a loop that looks for the end of a string has as many rounds as there are addresses.

`bcopy` goes from the last byte to the first when the destination is behind the source, and else from the first to the
last, so that no byte of the source is overwritten before it is read.

`strncat` puts the terminator behind a copy that was cut off only if the byte there is not 0, and then one byte too far:
the old byte becomes part of the string. `strncmp` compares the characters as signed numbers and `memcmp` as unsigned
ones, so that they disagree where a character of one string has its high bit set and that of the other has not.
-/

namespace MicroOs.Libc

open List Memory

def sizeMax : ℕ := 2 ^ 32 - 1

/-- A string that lies inside of the address space, and not at the null pointer. -/
structure StringAt (memory : Memory) (address : ℕ) (chars : List (BitVec 8)) : Prop where
  present : memory.HasString address chars
  notNull : address ≠ 0
  inside : address + chars.length < 2 ^ 32

/-- The loop of `bcopy` from the last byte to the first, with the bytes left. -/
def copyBackward (source destin : ℕ) : ℕ → Memory → Memory
  | 0, memory => memory
  | i + 1, memory => copyBackward source destin i (memory.writeByte (destin + i) (memory (source + i)))

/-- The loop of `bcopy` from byte `i` on, with the bytes left. -/
def copyForward (source destin : ℕ) : ℕ → ℕ → Memory → Memory
  | 0, _, memory => memory
  | left + 1, i, memory => copyForward source destin left (i + 1) (memory.writeByte (destin + i) (memory (source + i)))

def bcopy (memory : Memory) (source destin : ℕ) (size : ℤ) : Memory :=
  if size = 0 then memory
  else if source < destin then copyBackward source destin size.toNat memory
  else copyForward source destin size.toNat 0 memory

/-- What a round overwrites lies behind everything that is still to be read. -/
theorem copyBackward_eq {source destin : ℕ} (above : source < destin) (size : ℕ) (memory : Memory) :
    copyBackward source destin size memory = memory.blit destin size fun i => memory (source + i) := by
  induction size generalizing memory with
  | zero =>
    funext address
    exact (memory.blit_outside _ (by omega)).symm
  | succ size ih =>
    rw [copyBackward, ih]
    funext address
    simp only [blit, writeByte]
    grind

/-- What a round overwrites lies before everything that is still to be read. -/
theorem copyForward_eq {source destin : ℕ} (below : destin ≤ source) (left i : ℕ) (memory : Memory) :
    copyForward source destin left i memory = memory.blit (destin + i) left fun j => memory (source + i + j) := by
  induction left generalizing i memory with
  | zero =>
    funext address
    exact (memory.blit_outside _ (by omega)).symm
  | succ left ih =>
    rw [copyForward, ih]
    funext address
    simp only [blit, writeByte]
    grind

theorem bcopy_eq (memory : Memory) (source destin : ℕ) (size : ℤ) :
    bcopy memory source destin size = memory.blit destin size.toNat fun i => memory (source + i) := by
  rw [bcopy]
  split_ifs with empty above
  · funext address
    exact (memory.blit_outside _ (by omega)).symm
  · exact copyBackward_eq above _ memory
  · exact copyForward_eq (not_lt.1 above) _ 0 memory

/-- `bcopy` is safe for regions that overlap. -/
theorem bcopy_copies (memory : Memory) (source destin : ℕ) (size : ℤ) :
    (∀ i : ℕ, i < size → bcopy memory source destin size (destin + i) = memory (source + i)) ∧
      ∀ address : ℕ, (address < destin ∨ destin + size ≤ address) →
        bcopy memory source destin size address = memory address := by
  rw [bcopy_eq]
  refine ⟨fun i inside => ?_, fun address outside => ?_⟩
  · rw [memory.blit_inside _ (by omega), Nat.add_sub_cancel_left]
  · exact memory.blit_outside _ (by omega)

/-- The loop that looks for the end of a string, with the rounds left. -/
def findEnd (memory : Memory) : ℕ → ℕ → Option ℕ
  | 0, _ => none
  | rounds + 1, dest => if memory dest ≠ 0 then findEnd memory rounds (dest + 1) else some dest

/-- The loop that copies up to `count` characters, with the pointer behind the copy. -/
def copyString : ℕ → Memory → ℕ → ℕ → Memory × ℕ
  | 0, memory, dest, _ => (memory, dest)
  | count + 1, memory, dest, src =>
    let copied := memory src
    let memory := memory.writeByte dest copied
    if copied = 0 then (memory, dest) else copyString count memory (dest + 1) (src + 1)

def strncat (memory : Memory) (dest src count : ℕ) : Option Memory := do
  let dest ← findEnd memory (2 ^ 32) dest
  let (memory, dest) := copyString count memory dest src
  some (if memory dest ≠ 0 then memory.writeByte (dest + 1) 0 else memory)

def strcat (memory : Memory) (dest src : ℕ) : Option Memory := strncat memory dest src sizeMax

variable {memory memory' : Memory} {dest src count : ℕ} {old chars : List (BitVec 8)}

theorem findEnd_eq {rounds : ℕ} (present : memory.HasString dest chars) (enough : chars.length < rounds) :
    findEnd memory rounds dest = some (dest + chars.length) := by
  induction rounds generalizing chars dest with
  | zero => cases enough
  | succ rounds ih =>
    cases chars with
    | nil =>
      exact if_neg (not_not.2 present)
    | cons ch chars =>
      obtain ⟨⟨first, nonzero⟩, rest⟩ := present
      have more : memory dest ≠ 0 := by rwa [first]
      rw [findEnd, if_pos more, ih rest (Nat.lt_of_succ_lt_succ enough), length_cons]
      congr 1
      omega

/-- What the loop that copies leaves behind: the characters and, if it was reached, the terminator. -/
structure Copied (memory memory' : Memory) (dest count : ℕ) (chars : List (BitVec 8)) : Prop where
  text : memory'.HasChars dest (chars.take count)
  behind : memory' (dest + min count chars.length) =
    if chars.length < count then 0 else memory (dest + min count chars.length)
  others : ∀ address, address < dest ∨ dest + min count chars.length < address → memory' address = memory address

theorem copied_nil : Copied memory (memory.writeByte dest 0) dest (count + 1) [] := by
  refine ⟨trivial, ?_, fun address other => ?_⟩
  · rw [length_nil, Nat.min_zero, Nat.add_zero, memory.writeByte_same, if_pos (Nat.succ_pos count)]
  · exact memory.writeByte_ne _ (by omega)

theorem Copied.cons {ch : BitVec 8} (copied : Copied (memory.writeByte dest ch) memory' (dest + 1) count chars)
    (nonzero : ch ≠ 0) : Copied memory memory' dest (count + 1) (ch :: chars) := by
  have place : dest + min (count + 1) (ch :: chars).length = dest + 1 + min count chars.length := by
    rw [length_cons]
    omega
  refine ⟨⟨⟨?_, nonzero⟩, copied.text⟩, ?_, fun address other => ?_⟩
  · rw [copied.others dest (.inl (Nat.lt_succ_self dest)), memory.writeByte_same]
  · rw [place, copied.behind, memory.writeByte_ne ch (by omega)]
    simp
  · rw [copied.others address (by omega), memory.writeByte_ne ch (by omega)]

theorem copyString_spec (present : memory.HasString src chars)
    (restrict : dest + min count chars.length < src ∨ src + chars.length < dest) :
    ∃ memory', copyString count memory dest src = (memory', dest + min count chars.length) ∧
      Copied memory memory' dest count chars := by
  induction chars generalizing memory dest src count with
  | nil =>
    cases count with
    | zero => exact ⟨memory, rfl, trivial, rfl, fun _ _ => rfl⟩
    | succ count =>
      have zero : memory src = 0 := present
      refine ⟨memory.writeByte dest 0, ?_, copied_nil⟩
      rw [copyString, zero, if_pos rfl, length_nil, Nat.min_zero, Nat.add_zero]
  | cons ch chars ih =>
    cases count with
    | zero => exact ⟨memory, by simp [copyString], trivial, by simp, fun _ _ => rfl⟩
    | succ count =>
      obtain ⟨⟨first, nonzero⟩, rest⟩ := present
      rw [length_cons, Nat.succ_min_succ] at restrict ⊢
      have apart : ∀ i ≤ chars.length, memory.writeByte dest ch (src + 1 + i) = memory (src + 1 + i) :=
        fun i le => memory.writeByte_ne ch (by omega)
      obtain ⟨memory', ran, copied⟩ := @ih (memory.writeByte dest ch) (dest + 1) (src + 1) count (rest.congr apart)
        (by omega)
      have round : copyString (count + 1) memory dest src =
          copyString count (memory.writeByte dest ch) (dest + 1) (src + 1) := by
        rw [copyString, first]
        exact if_neg nonzero
      have place : dest + 1 + min count chars.length = dest + (min count chars.length + 1) := by omega
      rw [place] at ran
      exact ⟨memory', round.trans ran, copied.cons nonzero⟩

/-- The string is the old one with the first `count` characters of the other behind it; nothing else has changed. -/
structure Appended (memory memory' : Memory) (dest count : ℕ) (old chars : List (BitVec 8)) : Prop where
  text : memory'.HasString dest (old ++ chars.take count)
  others : ∀ address, address < dest ∨ dest + (old.length + min count chars.length) < address →
    memory' address = memory address

/-- The call does what the C standard says of it. -/
def Concatenates (memory : Memory) (dest src count : ℕ) (old chars : List (BitVec 8)) : Prop :=
  ∃ memory', strncat memory dest src count = some memory' ∧ Appended memory memory' dest count old chars

section

variable (destString : StringAt memory dest old) (srcString : StringAt memory src chars)
  (restrict : dest + (old.length + min count chars.length) < src ∨ src + chars.length < dest)

include destString srcString restrict

/-- What `strncat` does behind its two loops. -/
theorem strncat_eq : ∃ memory', Copied memory memory' (dest + old.length) count chars ∧
    strncat memory dest src count =
      some (if memory' (dest + old.length + min count chars.length) ≠ 0 then
        memory'.writeByte (dest + old.length + min count chars.length + 1) 0 else memory') := by
  have enough : old.length < 2 ^ 32 := by
    have inside := destString.inside
    omega
  have copies : ∃ memory', copyString count memory (dest + old.length) src =
      (memory', dest + old.length + min count chars.length) ∧ Copied memory memory' (dest + old.length) count chars :=
    copyString_spec srcString.present (by omega)
  obtain ⟨memory', ran, copied⟩ := copies
  refine ⟨memory', copied, ?_⟩
  rw [strncat, findEnd_eq destString.present enough]
  simp [ran]

/-- `strncat` does what it should exactly if all is copied, or if the byte behind a shortened copy is 0 already. -/
theorem strncat_concatenates_iff :
    Concatenates memory dest src count old chars ↔
      chars.length < count ∨ memory (dest + (old.length + count)) = 0 := by
  obtain ⟨memory', copied, ran⟩ := strncat_eq destString srcString restrict
  have oldText : memory'.HasChars dest old :=
    destString.present.hasChars.congr fun i less => copied.others _ (.inl (by omega))
  have text := hasChars_append.2 ⟨oldText, copied.text⟩
  have length : dest + (old ++ chars.take count).length = dest + old.length + min count chars.length := by
    rw [length_append, length_take]
    omega
  by_cases terminated : memory' (dest + old.length + min count chars.length) = 0
  · -- the terminator was copied, or a byte 0 was there before
    rw [if_neg (not_not.2 terminated)] at ran
    refine iff_of_true ⟨memory', ran, ?_, fun address other => copied.others address (by omega)⟩ ?_
    · rw [hasString_iff, length]
      exact ⟨text, terminated⟩
    · by_cases all : chars.length < count
      · exact .inl all
      · rw [copied.behind, if_neg all, min_eq_left (not_lt.1 all), Nat.add_assoc] at terminated
        exact .inr terminated
  · -- the byte behind the copy stays, and the terminator is put behind it
    rw [if_pos terminated] at ran
    refine iff_of_false ?_ ?_
    · rintro ⟨memory'', returned, appended⟩
      rw [ran] at returned
      cases returned
      have wrong := appended.text.terminator
      rw [length, memory'.writeByte_ne 0 (by omega)] at wrong
      exact terminated wrong
    · rw [copied.behind] at terminated
      rintro (all | zero)
      · rw [if_pos all] at terminated
        exact terminated rfl
      · by_cases all : chars.length < count
        · rw [if_pos all] at terminated
          exact terminated rfl
        · rw [if_neg all, min_eq_left (not_lt.1 all), Nat.add_assoc] at terminated
          exact terminated zero

end

/-- The string "a" at 8 with other bytes behind it, and the string "bc" at 16. -/
def buffers (address : ℕ) : BitVec 8 :=
  match address with
  | 8 => 97
  | 9 => 0
  | 10 => 120
  | 16 => 98
  | 17 => 99
  | _ => 0

theorem buffers_dest : StringAt buffers 8 [97] := ⟨⟨⟨rfl, by decide⟩, rfl⟩, by decide, by decide⟩

theorem buffers_src : StringAt buffers 16 [98, 99] :=
  ⟨⟨⟨rfl, by decide⟩, ⟨rfl, by decide⟩, rfl⟩, by decide, by decide⟩

/-- All of "bc" fits behind "a". -/
theorem strncat_all : Concatenates buffers 8 16 5 [97] [98, 99] :=
  (strncat_concatenates_iff buffers_dest buffers_src (by decide)).2 (by decide)

/-- One character of "bc" behind "a" leaves "abx" if the buffer had an "x" there. -/
theorem strncat_not_terminated :
    StringAt buffers 8 [97] ∧ StringAt buffers 16 [98, 99] ∧ ¬Concatenates buffers 8 16 1 [97] [98, 99] ∧
      ∃ memory', strncat buffers 8 16 1 = some memory' ∧ memory'.HasString 8 [97, 98, 120] := by
  refine ⟨buffers_dest, buffers_src, fun good => ?_, ?_⟩
  · obtain ⟨memory', ran, appended⟩ := good
    have wrong := appended.text.terminator
    cases ran
    revert wrong
    decide
  · exact ⟨_, rfl, ⟨rfl, by decide⟩, ⟨rfl, by decide⟩, ⟨rfl, by decide⟩, rfl⟩

def memcmp (memory : Memory) : ℕ → ℕ → ℕ → ℤ
  | 0, _, _ => 0
  | n + 1, b1, b2 =>
    if (memory b1).toNat < (memory b2).toNat then -1
    else if (memory b2).toNat < (memory b1).toNat then 1
    else memcmp memory n (b1 + 1) (b2 + 1)

def strncmp (memory : Memory) : ℕ → ℕ → ℕ → ℤ
  | 0, _, _ => 0
  | n + 1, s, t =>
    if memory s ≠ 0 ∧ memory t ≠ 0 ∧ memory s = memory t then strncmp memory n (s + 1) (t + 1)
    else if (memory s).toInt < (memory t).toInt then -1
    else if memory s = memory t then 0
    else if (memory t).toInt < (memory s).toInt then 1
    else strncmp memory n (s + 1) (t + 1)

def strcmp (memory : Memory) (s t : ℕ) : ℤ := strncmp memory sizeMax s t

/-- The first place where two strings with their terminators differ, with what is there. -/
def firstDifference : List (BitVec 8) → List (BitVec 8) → Option (BitVec 8 × BitVec 8)
  | [], [] => none
  | [], b :: _ => some (0, b)
  | a :: _, [] => some (a, 0)
  | a :: left, b :: right => if a = b then firstDifference left right else some (a, b)

/-- The sign that a comparison gives to a difference, with what comes first. -/
def signOf (less : BitVec 8 → BitVec 8 → Prop) [DecidableRel less] : Option (BitVec 8 × BitVec 8) → ℤ
  | none => 0
  | some (a, b) => if less a b then -1 else 1

section

variable {left right : List (BitVec 8)} {s t n : ℕ}

theorem strncmp_differ (differ : memory s ≠ memory t) :
    strncmp memory (n + 1) s t = if (memory s).toInt < (memory t).toInt then -1 else 1 := by
  have signed : (memory s).toInt ≠ (memory t).toInt := fun same => differ (BitVec.eq_of_toInt_eq same)
  have other : ¬(memory s ≠ 0 ∧ memory t ≠ 0 ∧ memory s = memory t) := fun all => differ all.2.2
  rw [strncmp, if_neg other, if_neg differ]
  by_cases less : (memory s).toInt < (memory t).toInt
  · rw [if_pos less, if_pos less]
  · rw [if_neg less, if_neg less, if_pos (by omega)]

theorem strncmp_eq (leftString : memory.HasString s left) (rightString : memory.HasString t right) :
    strncmp memory n s t =
      signOf (fun a b => a.toInt < b.toInt) (firstDifference (left.take n) (right.take n)) := by
  induction n generalizing s t left right with
  | zero => rfl
  | succ n ih =>
    cases left with
    | nil =>
      cases right with
      | nil =>
        have first : memory s = 0 := leftString
        have second : memory t = 0 := rightString
        rw [strncmp, first, second]
        rfl
      | cons b right =>
        have first : memory s = 0 := leftString
        obtain ⟨⟨second, nonzero⟩, -⟩ := rightString
        rw [strncmp_differ (by rw [first, second]; exact nonzero.symm), first, second]
        rfl
    | cons a left =>
      obtain ⟨⟨first, nonzero⟩, leftRest⟩ := leftString
      cases right with
      | nil =>
        have second : memory t = 0 := rightString
        rw [strncmp_differ (by rwa [first, second]), first, second]
        rfl
      | cons b right =>
        obtain ⟨⟨second, nonzero'⟩, rightRest⟩ := rightString
        rw [take_succ_cons, take_succ_cons, firstDifference]
        by_cases same : a = b
        · rw [if_pos same, ← ih leftRest rightRest, strncmp, first, second, if_pos ⟨nonzero, nonzero', same⟩]
        · rw [if_neg same, strncmp_differ (by rwa [first, second]), first, second]
          rfl

theorem memcmp_differ (differ : memory s ≠ memory t) :
    memcmp memory (n + 1) s t = if (memory s).toNat < (memory t).toNat then -1 else 1 := by
  have unsigned : (memory s).toNat ≠ (memory t).toNat := fun same => differ (BitVec.eq_of_toNat_eq same)
  rw [memcmp]
  by_cases less : (memory s).toNat < (memory t).toNat
  · rw [if_pos less, if_pos less]
  · rw [if_neg less, if_neg less, if_pos (by omega)]

theorem memcmp_same (same : memory s = memory t) : memcmp memory (n + 1) s t = memcmp memory n (s + 1) (t + 1) := by
  rw [memcmp, same, if_neg (lt_irrefl _), if_neg (lt_irrefl _)]

theorem memcmp_eq (leftString : memory.HasString s left) (rightString : memory.HasString t right) :
    memcmp memory (min left.length right.length + 1) s t =
      signOf (fun a b => a.toNat < b.toNat) (firstDifference left right) := by
  induction left generalizing s t right with
  | nil =>
    have first : memory s = 0 := leftString
    cases right with
    | nil =>
      have second : memory t = 0 := rightString
      rw [length_nil, memcmp_same (first.trans second.symm)]
      rfl
    | cons b right =>
      obtain ⟨⟨second, nonzero⟩, -⟩ := rightString
      rw [memcmp_differ (by rw [first, second]; exact nonzero.symm), first, second]
      rfl
  | cons a left ih =>
    obtain ⟨⟨first, nonzero⟩, leftRest⟩ := leftString
    cases right with
    | nil =>
      have second : memory t = 0 := rightString
      rw [memcmp_differ (by rwa [first, second]), second]
      rfl
    | cons b right =>
      obtain ⟨⟨second, -⟩, rightRest⟩ := rightString
      rw [length_cons, length_cons, Nat.succ_min_succ, firstDifference]
      by_cases same : a = b
      · rw [if_pos same, memcmp_same (by rw [first, second, same]), ih leftRest rightRest]
      · rw [if_neg same, memcmp_differ (by rwa [first, second]), first, second]
        rfl

theorem StringAt.length_lt (string : StringAt memory s left) : left.length < sizeMax := by
  have inside := string.inside
  have notNull := string.notNull
  unfold sizeMax
  omega

theorem strcmp_eq (leftString : StringAt memory s left) (rightString : StringAt memory t right) :
    strcmp memory s t = signOf (fun a b => a.toInt < b.toInt) (firstDifference left right) := by
  rw [strcmp, strncmp_eq leftString.present rightString.present, take_of_length_le leftString.length_lt.le,
    take_of_length_le rightString.length_lt.le]

/-- Where the strings differ first, both characters or none have the high bit set. -/
def SameHalf (left right : List (BitVec 8)) : Prop :=
  ∀ a b, firstDifference left right = some (a, b) → a.msb = b.msb

/-- `strcmp` agrees with `memcmp` up to the terminator of the shorter string, and `strncmp` with `strcmp` of the
strings cut off. -/
structure ComparisonsAgree (memory : Memory) (s t : ℕ) (left right : List (BitVec 8)) : Prop where
  strings : (strcmp memory s t).sign = (memcmp memory (min left.length right.length + 1) s t).sign
  prefixes : ∀ n ≤ sizeMax, ∀ memory' s' t', StringAt memory' s' (left.take n) → StringAt memory' t' (right.take n) →
    (strncmp memory n s t).sign = (strcmp memory' s' t').sign

theorem signed_iff_unsigned {a b : BitVec 8} (same : a.msb = b.msb) : a.toInt < b.toInt ↔ a.toNat < b.toNat := by
  have orders := BitVec.slt_eq_ult_of_msb_eq same
  exact decide_eq_decide.1 orders

theorem signed_iff_not_unsigned {a b : BitVec 8} (differ : a.msb ≠ b.msb) : a.toInt < b.toInt ↔ ¬a.toNat < b.toNat := by
  have orders := BitVec.slt_eq_not_ult_of_msb_neq differ
  rw [BitVec.ult, ← decide_not] at orders
  exact decide_eq_decide.1 orders

theorem signOf_sign_eq_iff {a b : BitVec 8} :
    (signOf (fun a b => a.toInt < b.toInt) (some (a, b))).sign =
      (signOf (fun a b => a.toNat < b.toNat) (some (a, b))).sign ↔ a.msb = b.msb := by
  rw [signOf, signOf]
  by_cases same : a.msb = b.msb
  · rw [iff_true_right same, if_congr (signed_iff_unsigned same) rfl rfl]
  · rw [iff_false_right same, if_congr (signed_iff_not_unsigned same) rfl rfl]
    by_cases less : a.toNat < b.toNat
    · rw [if_neg (not_not.2 less), if_pos less]
      decide
    · rw [if_pos less, if_neg less]
      decide

/-- The comparisons agree exactly if the characters at the first difference are on the same side of 128. -/
theorem comparisonsAgree_iff (leftString : StringAt memory s left) (rightString : StringAt memory t right) :
    ComparisonsAgree memory s t left right ↔ SameHalf left right := by
  have strings : (strcmp memory s t).sign = (memcmp memory (min left.length right.length + 1) s t).sign ↔
      SameHalf left right := by
    rw [strcmp_eq leftString rightString, memcmp_eq leftString.present rightString.present, SameHalf]
    cases difference : firstDifference left right with
    | none => exact iff_of_true rfl fun a b found => absurd found (Option.some_ne_none _).symm
    | some pair =>
      obtain ⟨a, b⟩ := pair
      rw [signOf_sign_eq_iff]
      refine ⟨fun same a' b' found => ?_, fun same => same a b rfl⟩
      cases found
      exact same
  refine ⟨fun agree => strings.1 agree.strings, fun same => ⟨strings.2 same, ?_⟩⟩
  -- cutting the strings does not depend on their characters
  intro n _ memory' s' t' leftCut rightCut
  rw [strcmp_eq leftCut rightCut, strncmp_eq leftString.present rightString.present]

end

/-- The strings "a" at 8 and "bc" at 16 differ in characters below 128. -/
theorem comparisonsAgree_ascii : ComparisonsAgree buffers 8 16 [97] [98, 99] := by
  refine (comparisonsAgree_iff buffers_dest buffers_src).2 fun a b found => ?_
  cases found
  decide

/-- The string of the byte 128 at 8, and the string "a" at 16. -/
def highAndLow (address : ℕ) : BitVec 8 :=
  match address with
  | 8 => 128
  | 16 => 97
  | _ => 0

/-- The byte 128 is before "a" for `strcmp` and behind it for `memcmp`. -/
theorem comparisons_disagree :
    StringAt highAndLow 8 [128] ∧ StringAt highAndLow 16 [97] ∧
      strcmp highAndLow 8 16 = -1 ∧ memcmp highAndLow 2 8 16 = 1 ∧
      ¬ComparisonsAgree highAndLow 8 16 [128] [97] := by
  have left : StringAt highAndLow 8 [128] := ⟨⟨⟨rfl, by decide⟩, rfl⟩, by decide, by decide⟩
  have right : StringAt highAndLow 16 [97] := ⟨⟨⟨rfl, by decide⟩, rfl⟩, by decide, by decide⟩
  refine ⟨left, right, strcmp_eq left right, by decide, fun agree => ?_⟩
  have signs := agree.strings
  revert signs
  decide

end MicroOs.Libc
