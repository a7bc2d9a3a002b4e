import MicroOs.Usb.Configure

/-! # What a search for a descriptor finds

The descriptors of a configuration are a chain of records. `get_descriptor_ptr` follows it and stops at the descriptor
with the number asked for, or where the chain has passed the end. It looks at the header of each descriptor on its way,
and it does not return if it comes to a length of 0 in a descriptor of another type.
-/

namespace MicroOs.Enumeration

open RecordChain List

/-- Whether an access stays inside of the object it is made to. -/
def Access.Allowed : Access → Prop
  | .write offset size => offset + size ≤ buffSize
  | .read none _ _ => False
  | .read (some ptr) field confSize => ((ptr + field : ℕ) : ℤ) < confSize
  | .fill pipeI _ => pipeI < maxUsbPipes

instance : DecidablePred Access.Allowed
  | .write offset size => inferInstanceAs (Decidable (offset + size ≤ buffSize))
  | .read none _ _ => inferInstanceAs (Decidable False)
  | .read (some ptr) field confSize => inferInstanceAs (Decidable (((ptr + field : ℕ) : ℤ) < confSize))
  | .fill pipeI _ => inferInstanceAs (Decidable (pipeI < maxUsbPipes))

def bLength (bytes : ℕ → BitVec 8) (ptr : ℕ) : ℕ := (bytes ptr).toNat

def HasType (bytes : ℕ → BitVec 8) (descriptorType : BitVec 8) (ptr : ℕ) : Prop := bytes (ptr + 1) = descriptorType

instance (bytes : ℕ → BitVec 8) (descriptorType : BitVec 8) : DecidablePred (HasType bytes descriptorType) :=
  fun ptr => inferInstanceAs (Decidable (bytes (ptr + 1) = descriptorType))

/-- Accesses that look at the headers of the descriptors from `k` to `k + n`. -/
structure Looks (bytes : ℕ → BitVec 8) (confSize : ℤ) (k n : ℕ) (accesses : List Access) : Prop where
  reads : ∀ a ∈ accesses, ∃ ptr field, a = .read (some ptr) field confSize
  inside : (∀ a ∈ accesses, a.Allowed) ↔ ∀ j, k ≤ j → j ≤ k + n → (place (bLength bytes) j : ℤ) + 1 < confSize

section

variable {bytes : ℕ → BitVec 8} {confSize : ℤ} {k n ptr : ℕ} {accesses : List Access}

theorem allowed_header : (∀ a ∈ [Access.read (some ptr) 1 confSize, .read (some ptr) 0 confSize], a.Allowed) ↔
    (ptr : ℤ) + 1 < confSize := by
  rw [forall_mem_cons, forall_mem_singleton]
  simp only [Access.Allowed]
  omega

theorem Looks.found : Looks bytes confSize k 0 [.read (some (place (bLength bytes) k)) 1 confSize] where
  reads := forall_mem_singleton.2 ⟨_, _, rfl⟩
  inside := by
    rw [forall_mem_singleton]
    constructor
    · intro allowed j lower upper
      obtain rfl : j = k := by omega
      exact_mod_cast allowed
    · intro inside
      exact_mod_cast inside k le_rfl le_rfl

theorem Looks.passed : Looks bytes confSize k 0
    [.read (some (place (bLength bytes) k)) 1 confSize, .read (some (place (bLength bytes) k)) 0 confSize] where
  reads := forall_mem_cons.2 ⟨⟨_, _, rfl⟩, forall_mem_singleton.2 ⟨_, _, rfl⟩⟩
  inside := by
    rw [allowed_header]
    constructor
    · intro allowed j lower upper
      obtain rfl : j = k := by omega
      exact allowed
    · exact fun inside => inside k le_rfl le_rfl

theorem Looks.cons (rest : Looks bytes confSize (k + 1) n accesses) : Looks bytes confSize k (n + 1)
    ([.read (some (place (bLength bytes) k)) 1 confSize, .read (some (place (bLength bytes) k)) 0 confSize] ++
      accesses) where
  reads := forall_mem_append.2 ⟨Looks.passed.reads, rest.reads⟩
  inside := by
    rw [forall_mem_append, rest.inside, allowed_header]
    constructor
    · rintro ⟨here, later⟩ j lower upper
      rcases lower.eq_or_lt with rfl | lower
      · exact here
      · exact later j lower (by omega)
    · exact fun inside => ⟨inside k le_rfl (by omega), fun j lower upper => inside j (by omega) (by omega)⟩

end

namespace State

variable {s s' : State} {descriptorType : BitVec 8} {confSize : ℤ} {rounds index ptr k n : ℕ} {r : Option ℕ}
  {result : Option ℕ × State}

theorem access_access (s : State) (first second : List Access) :
    (s.access first).access second = s.access (first ++ second) := by
  simp [access]

theorem scan_found (here : HasType s.conf descriptorType ptr) :
    s.scan descriptorType confSize (rounds + 1) 0 ptr =
      some (some ptr, s.access [.read (some ptr) 1 confSize]) :=
  if_pos ⟨here, rfl⟩

/-- What is left to skip behind a descriptor that is not the one. -/
def indexBehind (s : State) (descriptorType : BitVec 8) (index ptr : ℕ) : ℕ :=
  if HasType s.conf descriptorType ptr then index - 1 else index

theorem scan_passed (other : ¬(HasType s.conf descriptorType ptr ∧ index = 0)) :
    s.scan descriptorType confSize (rounds + 1) index ptr =
      if ((ptr + bLength s.conf ptr : ℕ) : ℤ) < confSize then
        (s.access [.read (some ptr) 1 confSize, .read (some ptr) 0 confSize]).scan descriptorType confSize rounds
          (s.indexBehind descriptorType index ptr) (ptr + bLength s.conf ptr)
      else some (none, s.access [.read (some ptr) 1 confSize, .read (some ptr) 0 confSize]) := by
  have passed : (s.reads confSize (some ptr) [1]).reads confSize (some ptr) [0] =
      s.access [.read (some ptr) 1 confSize, .read (some ptr) 0 confSize] := access_access s _ _
  rw [← passed]
  exact if_neg other

theorem scan_passed_place (other : ¬(HasType s.conf descriptorType (place (bLength s.conf) k) ∧ index = 0)) :
    s.scan descriptorType confSize (rounds + 1) index (place (bLength s.conf) k) =
      if (place (bLength s.conf) (k + 1) : ℤ) < confSize then
        (s.access [.read (some (place (bLength s.conf) k)) 1 confSize,
          .read (some (place (bLength s.conf) k)) 0 confSize]).scan descriptorType confSize rounds
          (s.indexBehind descriptorType index (place (bLength s.conf) k)) (place (bLength s.conf) (k + 1))
      else
        some (none, s.access [.read (some (place (bLength s.conf) k)) 1 confSize,
          .read (some (place (bLength s.conf) k)) 0 confSize]) :=
  scan_passed other

theorem before_add_indexBehind (other : ¬(HasType s.conf descriptorType (place (bLength s.conf) k) ∧ index = 0)) :
    before (bLength s.conf) (HasType s.conf descriptorType) (k + 1) +
        s.indexBehind descriptorType index (place (bLength s.conf) k) =
      before (bLength s.conf) (HasType s.conf descriptorType) k + index := by
  by_cases here : HasType s.conf descriptorType (place (bLength s.conf) k)
  · rw [before_succ_of_kind here, indexBehind, if_pos here]
    have positive : index ≠ 0 := fun zero => other ⟨here, zero⟩
    omega
  · rw [before_succ_of_not here, indexBehind, if_neg here]

theorem scan_ends (ended : s.scan descriptorType confSize rounds index (place (bLength s.conf) k) = some (r, s')) :
    ∃ n accesses, s' = s.access accesses ∧
      Ends (bLength s.conf) (HasType s.conf descriptorType) confSize
        (before (bLength s.conf) (HasType s.conf descriptorType) k + index) (k + n) r ∧
      (∀ j, k < j → j ≤ k + n → (place (bLength s.conf) j : ℤ) < confSize) ∧ Looks s.conf confSize k n accesses := by
  induction rounds generalizing s index k with
  | zero => cases ended
  | succ rounds ih =>
    by_cases found : HasType s.conf descriptorType (place (bLength s.conf) k) ∧ index = 0
    · obtain ⟨here, rfl⟩ := found
      rw [scan_found here] at ended
      cases ended
      exact ⟨0, _, rfl, ⟨rfl, here, rfl⟩, fun j lower upper => by omega, Looks.found⟩
    · rw [scan_passed_place found] at ended
      split_ifs at ended with more
      · obtain ⟨n, accesses, rfl, ends, inside, looks⟩ := ih (s := s.access _) (k := k + 1) ended
        refine ⟨n + 1, _, access_access s _ _, ?_, ?_, looks.cons⟩
        · rw [← before_add_indexBehind found, Nat.add_comm n 1, ← Nat.add_assoc]
          exact ends
        · intro j lower upper
          rcases Nat.eq_or_lt_of_le lower with rfl | lower
          · exact more
          · exact inside j lower (by omega)
      · cases ended
        refine ⟨0, _, rfl, ⟨not_lt.1 more, ?_⟩, fun j lower upper => by omega, Looks.passed⟩
        rw [← before_add_indexBehind found]
        exact Nat.le_add_right _ _

theorem scan_of_ends (ends : Ends (bLength s.conf) (HasType s.conf descriptorType) confSize
      (before (bLength s.conf) (HasType s.conf descriptorType) k + index) (k + n) r)
    (inside : ∀ j, k < j → j ≤ k + n → (place (bLength s.conf) j : ℤ) < confSize) :
    ∃ accesses, s.scan descriptorType confSize (n + 1) index (place (bLength s.conf) k) = some (r, s.access accesses) ∧
      Looks s.conf confSize k n accesses := by
  induction n generalizing s index k with
  | zero =>
    by_cases found : HasType s.conf descriptorType (place (bLength s.conf) k) ∧ index = 0
    · obtain ⟨here, rfl⟩ := found
      rw [ends.found_of_kind here rfl, scan_found here]
      exact ⟨_, rfl, Looks.found⟩
    · have last : r = none ∧ confSize ≤ place (bLength s.conf) (k + 1) := by
        cases r with
        | none => exact ⟨rfl, ends.1⟩
        | some place =>
          obtain ⟨rfl, here, number⟩ := ends
          exact absurd ⟨here, by simpa using number⟩ found
      rw [scan_passed_place found, if_neg (not_lt.2 last.2), last.1]
      exact ⟨_, rfl, Looks.passed⟩
  | succ n ih =>
    have other : ¬(HasType s.conf descriptorType (place (bLength s.conf) k) ∧ index = 0) := by
      rintro ⟨here, rfl⟩
      have few := ends.before_le
      have more : before (bLength s.conf) (HasType s.conf descriptorType) (k + 1) ≤ _ :=
        before_mono (show k + 1 ≤ k + (n + 1) by omega)
      rw [before_succ_of_kind here] at more
      omega
    have next := inside (k + 1) (Nat.lt_succ_self k) (by omega)
    rw [← before_add_indexBehind other, Nat.add_comm n 1, ← Nat.add_assoc] at ends
    obtain ⟨accesses, ran, looks⟩ := ih (s := s.access _) (k := k + 1) ends fun j lower upper =>
      inside j (by omega) (by omega)
    refine ⟨_, ?_, looks.cons⟩
    rw [scan_passed_place other, if_pos next, ← access_access]
    exact ran

/-- A descriptor of another type whose length is 0 is never left. -/
theorem scan_stuck (other : ¬HasType s.conf descriptorType ptr) (zero : bLength s.conf ptr = 0)
    (inside : (ptr : ℤ) < confSize) : s.scan descriptorType confSize rounds index ptr = none := by
  induction rounds generalizing s with
  | zero => rfl
  | succ rounds ih =>
    rw [scan_passed fun both => other both.1, zero, Nat.add_zero, if_pos inside, indexBehind, if_neg other]
    exact ih other zero

/-- If a search returns at all, it returns within as many rounds as there are bytes left and descriptors to skip. -/
theorem scan_enough {enough : ℕ} (ended : s.scan descriptorType confSize rounds index ptr = some result)
    (bound : confSize.toNat - ptr + index < enough) :
    s.scan descriptorType confSize enough index ptr = some result := by
  induction rounds generalizing s index ptr enough with
  | zero => cases ended
  | succ rounds ih =>
    obtain ⟨enough, rfl⟩ : ∃ rest, enough = rest + 1 := ⟨enough - 1, by omega⟩
    by_cases found : HasType s.conf descriptorType ptr ∧ index = 0
    · obtain ⟨here, rfl⟩ := found
      rw [scan_found here] at ended ⊢
      exact ended
    · rw [scan_passed found] at ended ⊢
      split_ifs at ended ⊢ with more
      · apply ih ended
        by_cases here : HasType s.conf descriptorType ptr
        · have positive : index ≠ 0 := fun zero => found ⟨here, zero⟩
          rw [indexBehind, if_pos here]
          omega
        · have length : bLength s.conf ptr ≠ 0 := by
            intro zero
            rw [zero] at ended more
            have stuck := ended.symm.trans (scan_stuck (s := s.access _) here zero more)
            cases stuck
          rw [indexBehind, if_neg here]
          omega
      · exact ended

theorem getDescriptorPtr_of_scan (ended : s.scan descriptorType confSize rounds index 0 = some result) :
    s.getDescriptorPtr descriptorType index confSize = some result :=
  scan_enough ended (by omega)

/-- Where the model has no result, no number of rounds is enough. -/
theorem scan_eq_none_of_getDescriptorPtr (never : s.getDescriptorPtr descriptorType index confSize = none) :
    s.scan descriptorType confSize rounds index 0 = none := by
  rcases ended : s.scan descriptorType confSize rounds index 0 with _ | result
  · rfl
  · rw [getDescriptorPtr_of_scan ended] at never
    cases never

theorem getDescriptorPtr_ends (ended : s.getDescriptorPtr descriptorType index confSize = some (r, s')) :
    ∃ k accesses, s' = s.access accesses ∧
      Ends (bLength s.conf) (HasType s.conf descriptorType) confSize index k r ∧
      (∀ j, 0 < j → j ≤ k → (place (bLength s.conf) j : ℤ) < confSize) ∧ Looks s.conf confSize 0 k accesses := by
  have walked := scan_ends (k := 0) ended
  simpa only [before, Nat.count_zero, Nat.zero_add] using walked

theorem getDescriptorPtr_of_ends (ends : Ends (bLength s.conf) (HasType s.conf descriptorType) confSize index k r)
    (inside : ∀ j, 0 < j → j ≤ k → (place (bLength s.conf) j : ℤ) < confSize) :
    ∃ accesses, s.getDescriptorPtr descriptorType index confSize = some (r, s.access accesses) ∧
      Looks s.conf confSize 0 k accesses := by
  have first := Nat.zero_add index
  rw [← first, ← Nat.zero_add k] at ends
  obtain ⟨accesses, ran, looks⟩ := scan_of_ends ends fun j lower upper => inside j lower (by omega)
  exact ⟨accesses, getDescriptorPtr_of_scan ran, looks⟩

/-- All accesses so far are allowed. -/
def Contained (s : State) : Prop := ∀ a ∈ s.log, a.Allowed

instance (s : State) : Decidable s.Contained := inferInstanceAs (Decidable (∀ a ∈ s.log, a.Allowed))

theorem contained_access {accesses : List Access} :
    (s.access accesses).Contained ↔ s.Contained ∧ ∀ a ∈ accesses, a.Allowed := forall_mem_append

end State

/-- A search that stays inside of the configuration and ends with this result. -/
def Lookup (bytes : ℕ → BitVec 8) (confSize : ℤ) (descriptorType : BitVec 8) (index : ℕ) (r : Option ℕ) : Prop :=
  ∃ k, Ends (bLength bytes) (HasType bytes descriptorType) confSize index k r ∧
    ∀ j ≤ k, (place (bLength bytes) j : ℤ) + 1 < confSize

theorem Lookup.congr {bytes bytes' : ℕ → BitVec 8} {confSize : ℤ} {descriptorType : BitVec 8} {index : ℕ}
    {r : Option ℕ} (same : ∀ p : ℕ, (p : ℤ) < confSize → bytes p = bytes' p)
    (found : Lookup bytes confSize descriptorType index r) : Lookup bytes' confSize descriptorType index r := by
  obtain ⟨k, ends, inside⟩ := found
  have sameLength (p : ℕ) (less : (p : ℤ) + 1 < confSize) : bLength bytes p = bLength bytes' p := by
    rw [bLength, bLength, same p (by omega)]
  have sameType (p : ℕ) (less : (p : ℤ) + 1 < confSize) :
      HasType bytes descriptorType p ↔ HasType bytes' descriptorType p := by
    rw [HasType, HasType, same (p + 1) (by omega)]
  refine ⟨k, ends.congr sameLength sameType inside, fun j le => ?_⟩
  rw [← place_congr sameLength fun i less => inside i (by omega)]
  exact inside j le

namespace State

variable {s s' : State} {descriptorType : BitVec 8} {confSize : ℤ} {index : ℕ} {r : Option ℕ}

theorem lookup_of_getDescriptorPtr (ended : s.getDescriptorPtr descriptorType index confSize = some (r, s'))
    (contained : s'.Contained) :
    Lookup s.conf confSize descriptorType index r ∧ s.Contained ∧ ∃ accesses, s' = s.access accesses := by
  obtain ⟨k, accesses, rfl, ends, -, looks⟩ := getDescriptorPtr_ends ended
  obtain ⟨earlier, allowed⟩ := contained_access.1 contained
  exact ⟨⟨k, ends, fun j le => looks.inside.1 allowed j (Nat.zero_le j) (by omega)⟩, earlier, accesses, rfl⟩

theorem getDescriptorPtr_of_lookup (contained : s.Contained) (found : Lookup s.conf confSize descriptorType index r) :
    ∃ accesses, s.getDescriptorPtr descriptorType index confSize = some (r, s.access accesses) ∧
      (s.access accesses).Contained := by
  obtain ⟨k, ends, inside⟩ := found
  obtain ⟨accesses, ran, looks⟩ := getDescriptorPtr_of_ends ends fun j _ le => by
    have header := inside j le
    omega
  exact ⟨accesses, ran, contained_access.2 ⟨contained, looks.inside.2 fun j _ le => inside j (by omega)⟩⟩

end State

end MicroOs.Enumeration
