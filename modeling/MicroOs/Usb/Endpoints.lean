import MicroOs.Usb.HostileDevice

/-! # Endpoints of the chosen interface

The descriptors of an interface's endpoints stand behind the descriptor of the interface. `usb_configure_device` fills
the pipes from the endpoints 0, 1 and so on, but `get_descriptor_ptr` counts the endpoints of the whole configuration.
The pipes therefore get the endpoints of the chosen interface only if no endpoint stands in front of it.
-/

namespace MicroOs.Enumeration

open Usb SearchLoop RecordChain List Option

section

variable (bytes : ℕ → BitVec 8) (confSize : ℤ)

def bNumEndpoints (ptr : ℕ) : ℕ := (bytes (ptr + 4)).toNat

/-- Record `k` stands behind interface record `m`, with no other interface in between. -/
structure Follows (m k : ℕ) : Prop where
  behind : m < k
  inside : (place (bLength bytes) k : ℤ) < confSize
  alone : ∀ l ≤ k, m < l → ¬HasType bytes usbInterfaceDescriptor (place (bLength bytes) l)

def endpointsBefore (k : ℕ) : ℕ := before (bLength bytes) (HasType bytes usbEndpointDescriptor) k

/-- Record `k` is endpoint `j` of interface record `m`. -/
structure IsEndpoint (m j k : ℕ) : Prop extends Follows bytes confSize m k where
  type : HasType bytes usbEndpointDescriptor (place (bLength bytes) k)
  number : endpointsBefore bytes k = endpointsBefore bytes m + j

/-- All lengths are positive, the configuration fits into the buffer, and each interface has as many endpoints as it
says. -/
structure WellFormed : Prop where
  received : 0 < confSize
  fits : usbDevDescriptorSize + confSize ≤ buffSize
  positive : ∀ k, (place (bLength bytes) k : ℤ) < confSize → 0 < bLength bytes (place (bLength bytes) k)
  endpoints : ∀ m, (place (bLength bytes) m : ℤ) < confSize →
    HasType bytes usbInterfaceDescriptor (place (bLength bytes) m) →
    ∃ e > m, (∀ k, Follows bytes confSize m k ↔ m < k ∧ k < e) ∧
      endpointsBefore bytes e = endpointsBefore bytes m + bNumEndpoints bytes (place (bLength bytes) m)

end

section

variable {bytes : ℕ → BitVec 8} {confSize : ℤ} {m j k : ℕ}

theorem WellFormed.exists_endpoint (wellFormed : WellFormed bytes confSize)
    (inside : (place (bLength bytes) m : ℤ) < confSize)
    (interface : HasType bytes usbInterfaceDescriptor (place (bLength bytes) m))
    (less : j < bNumEndpoints bytes (place (bLength bytes) m)) : ∃ k, IsEndpoint bytes confSize m j k := by
  obtain ⟨e, behind, block, count⟩ := wellFormed.endpoints m inside interface
  have bound : endpointsBefore bytes m + j < endpointsBefore bytes e := by omega
  obtain ⟨k, before, here, number⟩ := exists_number bound
  refine ⟨k, (block k).2 ⟨?_, before⟩, here, number⟩
  by_contra notBehind
  rcases (not_lt.1 notBehind).eq_or_lt with rfl | inFront
  · -- an interface is not an endpoint
    have types := here.symm.trans interface
    exact absurd types (by decide)
  · have more : endpointsBefore bytes (k + 1) ≤ endpointsBefore bytes m := before_mono inFront
    rw [endpointsBefore, before_succ_of_kind here] at more
    omega

theorem place_lt_iff (positive : ∀ k, (place (bLength bytes) k : ℤ) < confSize →
    0 < bLength bytes (place (bLength bytes) k)) (inside : (place (bLength bytes) m : ℤ) < confSize) :
    place (bLength bytes) k < place (bLength bytes) m ↔ k < m := by
  constructor
  · intro less
    by_contra notLess
    exact absurd (place_mono (bLength bytes) (not_lt.1 notLess)) (not_le.2 less)
  · intro less
    have mono : place (bLength bytes) k ≤ place (bLength bytes) m := place_mono _ less.le
    exact place_lt_place positive less (by omega)

end

variable {ptr n : ℕ}

namespace State

variable {env : Env} {s s' t : State} {selection : Selection} {confSize : ℤ} {epI : ℕ} {v : Verdict Empty}

/-- The pipe of endpoint `epI` was filled from a descriptor. -/
structure Filled (s : State) (epI ptr : ℕ) : Prop where
  access : .fill (epI + 1) (some ptr) ∈ s.log
  pipe : s.udev.pipe (epI + 1) = pipeFor fun field => s.conf (ptr + field)

def NoFill (s : State) : Prop := ∀ pipeI ptr, .fill pipeI ptr ∉ s.log

theorem NoFill.append {log : List Access} (none : s.NoFill) (same : s'.log = s.log ++ log)
    (other : ∀ pipeI ptr, .fill pipeI ptr ∉ log) : s'.NoFill := by
  intro pipeI ptr entry
  rw [same, mem_append] at entry
  rcases entry with earlier | later
  · exact none pipeI ptr earlier
  · exact other pipeI ptr later

theorem fill_notMem_reads {ptr : Option ℕ} {fields : List ℕ} (pipeI : ℕ) (other : Option ℕ) :
    .fill pipeI other ∉ fields.map (Access.read ptr · confSize) := by
  simp

theorem fill_notMem_looks {bytes : ℕ → BitVec 8} {k : ℕ} {accesses : List Access}
    (looks : Looks bytes confSize k n accesses) (pipeI : ℕ) (ptr : Option ℕ) : .fill pipeI ptr ∉ accesses := by
  intro entry
  obtain ⟨_, _, same⟩ := looks.reads _ entry
  cases same

theorem noFill_getDescriptorPtr {descriptorType : BitVec 8} {index : ℕ} {r : Option ℕ} (none : s.NoFill)
    (ended : s.getDescriptorPtr descriptorType index confSize = some (r, s')) : s'.NoFill := by
  obtain ⟨k, accesses, rfl, -, -, looks⟩ := getDescriptorPtr_ends ended
  exact none.append rfl (fill_notMem_looks looks)

theorem noFill_scanInterface {ifcI : ℕ} {v : Verdict (Option (ℕ × Driver))} (none : s.NoFill)
    (round : s.scanInterface env confSize ifcI = some (v, s')) : s'.NoFill := by
  rcases scanInterface_cases round with ⟨search, -⟩ | ⟨confIfc, s₁, search, -, rfl⟩
  · exact noFill_getDescriptorPtr none search
  · exact (noFill_getDescriptorPtr none search).append rfl fill_notMem_reads

theorem noFill_scanConfiguration {c : ℕ} {v : Verdict Selection} (none : s.NoFill)
    (round : s.scanConfiguration env c = some (v, s')) : s'.NoFill := by
  rcases load : s.loadConfiguration env c with ⟨confSize, s₁⟩
  rw [scanConfiguration_eq load, map_eq_some_iff] at round
  obtain ⟨⟨found, _⟩, ended, ⟨⟩⟩ := round
  obtain ⟨accesses, log, writes⟩ := loadConfiguration_log env s c
  rw [load] at log
  have loaded : s₁.NoFill := by
    apply none.append log
    intro pipeI ptr entry
    obtain ⟨_, _, same⟩ := writes _ entry
    cases same
  exact loop_preserves noFill_scanInterface (loaded.append rfl fill_notMem_reads) ended

theorem noFill_selectDriver {mem : ℕ → BitVec 8} {udev : UsbDev} {r : Option Selection}
    (select : selectDriver env mem udev = some (r, s)) : s.NoFill := by
  have start : (readDeviceDescriptor env mem udev).NoFill := by
    have access : (readDeviceDescriptor env mem udev).log =
      [.write 0 ((env.reply 0).count usbDevDescriptorSize)] := rfl
    intro pipeI ptr entry
    rw [access, mem_singleton] at entry
    cases entry
  exact loop_preserves noFill_scanConfiguration start select

structure FilledBySearch (t : State) (confSize : ℤ) (s : State) : Prop where
  unwritten : Unwritten t s
  fills : ∀ pipeI ptr, .fill pipeI ptr ∈ s.log → ∃ epI k, pipeI = epI + 1 ∧
    Ends (bLength t.conf) (HasType t.conf usbEndpointDescriptor) confSize epI k ptr

theorem FilledBySearch.recordEndpoint (filled : FilledBySearch t confSize s)
    (round : s.recordEndpoint env confSize epI = some (v, s')) : FilledBySearch t confSize s' := by
  obtain ⟨ptr, s₁, search, -, rfl⟩ := recordEndpoint_cases round
  obtain ⟨k, accesses, rfl, ends, -, looks⟩ := getDescriptorPtr_ends search
  refine ⟨⟨filled.unwritten.mem, filled.unwritten.requests⟩, ?_⟩
  intro pipeI other entry
  have log : ((s.access accesses).fillPipe env confSize epI ptr).log =
      s.log ++ accesses ++ [2, 3, 4, 5, 6].map (Access.read ptr · confSize) ++ [.fill (epI + 1) ptr] := rfl
  rw [log] at entry
  simp only [mem_append] at entry
  rcases entry with ((earlier | search) | read) | here
  · exact filled.fills pipeI other earlier
  · exact absurd search (fill_notMem_looks looks pipeI other)
  · exact absurd read (fill_notMem_reads pipeI other)
  · obtain ⟨rfl, rfl⟩ := Access.fill.inj (mem_singleton.1 here)
    rw [filled.unwritten.conf] at ends
    exact ⟨epI, k, rfl, ends⟩

theorem filled_fillPipe : (s.fillPipe env confSize epI (some ptr)).Filled epI ptr where
  access := mem_append_right _ (mem_singleton.2 rfl)
  pipe := Function.update_self _ _ _

theorem Filled.fillPipe {earlier : ℕ} {other : Option ℕ} (filled : s.Filled earlier ptr) (differs : earlier ≠ epI) :
    (s.fillPipe env confSize epI other).Filled earlier ptr where
  access := mem_append_left _ (mem_append_left _ filled.access)
  pipe := by
    have kept : (s.fillPipe env confSize epI other).udev.pipe (earlier + 1) = s.udev.pipe (earlier + 1) :=
      Function.update_of_ne (by omega) _ _
    rw [kept]
    exact filled.pipe

theorem Filled.later (filled : s.Filled epI ptr) (accesses : List Access) : (s.access accesses).Filled epI ptr :=
  ⟨mem_append_left _ filled.access, filled.pipe⟩

/-- The loop over the endpoints fills each pipe from the descriptor that has its number in the configuration. -/
theorem recordEndpoints_filled (env : Env) {m : ℕ} (own : ∀ j < bNumEndpoints s.conf selection.confIfc,
      ∃ k, IsEndpoint s.conf selection.confSize m j k ∧ endpointsBefore s.conf k = j) :
    ∃ s', s.recordEndpoints env selection = some s' ∧ ∀ j < bNumEndpoints s.conf selection.confIfc,
      ∃ k, IsEndpoint s.conf selection.confSize m j k ∧ s'.Filled j (place (bLength s.conf) k) := by
  have run : ∃ s₁, loop (recordEndpoint env selection.confSize) (bNumEndpoints s.conf selection.confIfc) 0
      (s.chosen selection) = some (none, s₁) ∧ Unwritten s s₁ ∧
        ∀ j < 0 + bNumEndpoints s.conf selection.confIfc,
          ∃ k, IsEndpoint s.conf selection.confSize m j k ∧ s₁.Filled j (place (bLength s.conf) k) := by
    apply loop_run fun i t => Unwritten s t ∧
      ∀ j < i, ∃ k, IsEndpoint s.conf selection.confSize m j k ∧ t.Filled j (place (bLength s.conf) k)
    · rintro i t - upper ⟨unwritten, earlier⟩
      obtain ⟨k, endpoint, number⟩ := own i (by omega)
      have ends : Ends (bLength s.conf) (HasType s.conf usbEndpointDescriptor) selection.confSize i k
          (some (place (bLength s.conf) k)) := ⟨rfl, endpoint.type, number⟩
      have inside (l : ℕ) (_ : 0 < l) (le : l ≤ k) : (place (bLength s.conf) l : ℤ) < selection.confSize := by
        have mono := place_mono (bLength s.conf) le
        have last := endpoint.inside
        omega
      rw [← unwritten.conf] at ends inside
      obtain ⟨accesses, search, -⟩ := getDescriptorPtr_of_ends ends inside
      refine ⟨_, recordEndpoint_eq search, ⟨unwritten.mem, unwritten.requests⟩, fun j less => ?_⟩
      rcases (Nat.le_of_lt_succ less).eq_or_lt with rfl | before
      · refine ⟨k, endpoint, ?_⟩
        rw [← unwritten.conf]
        exact filled_fillPipe
      · obtain ⟨k', endpoint', filled⟩ := earlier j before
        exact ⟨k', endpoint', (filled.later accesses).fillPipe before.ne⟩
    · exact ⟨unwritten_chosen, nofun⟩
  obtain ⟨s₁, ended, -, filled⟩ := run
  rw [Nat.zero_add] at filled
  have recorded := (recordEndpoints_eq env s selection).trans (congrArg (Option.map _) ended)
  refine ⟨_, recorded, fun j less => ?_⟩
  obtain ⟨k, endpoint, filled⟩ := filled j less
  exact ⟨k, endpoint, filled.access, filled.pipe⟩

theorem Filled.finish {address : BitVec 32} (filled : s.Filled epI ptr) :
    (s.finish env address selection).Filled epI ptr :=
  ⟨mem_append_left _ (mem_append_left _ filled.access), filled.pipe⟩

theorem fill_mem_of_finish {address : BitVec 32} {pipeI : ℕ} {ptr : Option ℕ}
    (entry : .fill pipeI ptr ∈ (s.finish env address selection).log) : .fill pipeI ptr ∈ s.log := by
  have log : (s.finish env address selection).log =
      s.log ++ [.read (some 0) 5 selection.confSize] ++
        [3, 2].map (Access.read (some selection.confIfc) · selection.confSize) := rfl
  rw [log] at entry
  simpa using entry

end State

section

variable {env : Env} {address : BitVec 32} {mem : ℕ → BitVec 8} {udev : UsbDev} {selection : Selection} {s : State}

theorem exists_chosen (select : selectDriver env mem udev = some (some selection, s)) :
    ∃ m, place (bLength s.conf) m = selection.confIfc ∧
      HasType s.conf usbInterfaceDescriptor (place (bLength s.conf) m) ∧
      (0 < selection.confSize → (place (bLength s.conf) m : ℤ) < selection.confSize) := by
  obtain ⟨c, s₀, round⟩ := exists_stop select
  rcases load : s₀.loadConfiguration env c with ⟨confSize, s₁⟩
  rw [State.scanConfiguration_eq load, map_eq_some_iff] at round
  obtain ⟨⟨found, s₂⟩, ended, settled⟩ := round
  obtain ⟨chose, rfl⟩ := Prod.mk.inj settled
  rcases found with _ | _ | ⟨confIfc, udd⟩
  · cases chose
  · cases chose
  · cases chose
    obtain ⟨ifcI, t, round⟩ := exists_stop ended
    rcases State.scanInterface_cases round with ⟨-, impossible⟩ | ⟨confIfc', t₁, search, asked, rfl⟩
    · cases impossible
    · obtain ⟨m, accesses, rfl, ⟨rfl, type, -⟩, inside, -⟩ := State.getDescriptorPtr_ends search
      rw [answer] at asked
      split at asked
      · cases asked
        refine ⟨m, rfl, type, fun received => ?_⟩
        rcases Nat.eq_zero_or_pos m with rfl | positive
        · exact received
        · exact inside m positive le_rfl
      · cases asked

/-- The call returns, and the pipes are filled from the endpoints of the chosen interface, in their order. -/
def OwnEndpoints (env : Env) (address : BitVec 32) (mem : ℕ → BitVec 8) (udev : UsbDev) (selection : Selection)
    (bytes : ℕ → BitVec 8) : Prop :=
  ∃ s', usbConfigureDevice env address mem udev = some (0, s') ∧ ∃ m, place (bLength bytes) m = selection.confIfc ∧
    ∀ j < bNumEndpoints bytes selection.confIfc, j + 1 < maxUsbPipes ∧
      ∃ k, IsEndpoint bytes selection.confSize m j k ∧ s'.Filled j (place (bLength bytes) k)

/-- No endpoint stands in front of the interface. -/
def FirstWithEndpoints (bytes : ℕ → BitVec 8) (confIfc : ℕ) : Prop :=
  ∀ k, place (bLength bytes) k < confIfc → ¬HasType bytes usbEndpointDescriptor (place (bLength bytes) k)

theorem firstWithEndpoints_iff {bytes : ℕ → BitVec 8} {confSize : ℤ} {m : ℕ}
    (positive : ∀ k, (place (bLength bytes) k : ℤ) < confSize → 0 < bLength bytes (place (bLength bytes) k))
    (inside : (place (bLength bytes) m : ℤ) < confSize) :
    FirstWithEndpoints bytes (place (bLength bytes) m) ↔ endpointsBefore bytes m = 0 := by
  rw [endpointsBefore, before_eq_zero_iff]
  exact forall_congr' fun k => imp_congr_left (place_lt_iff positive inside)

section

variable (select : selectDriver env mem udev = some (some selection, s))
include select

/-- What the pipes are filled from has been found by a search over the whole configuration. -/
theorem ends_of_filled {s' : State}
    (returned : usbConfigureDevice env address mem udev = some (0, s')) {j : ℕ} (filled : s'.Filled j ptr) :
    ∃ k, Ends (bLength s.conf) (HasType s.conf usbEndpointDescriptor) selection.confSize j k (some ptr) := by
  rcases usbConfigureDevice_cases returned with ⟨other, -⟩ | ⟨selection', t, s₁, select', record, -, rfl⟩
  · rw [select] at other
    cases other
  · rw [select] at select'
    cases select'
    have entry := State.fill_mem_of_finish filled.access
    rw [State.recordEndpoints_eq, map_eq_some_iff] at record
    obtain ⟨⟨r, s₂⟩, ended, rfl⟩ := record
    have start : State.FilledBySearch s selection.confSize (s.chosen selection) := by
      refine ⟨State.unwritten_chosen, fun pipeI ptr entry => ?_⟩
      have none : (s.chosen selection).NoFill :=
        (State.noFill_selectDriver select).append rfl State.fill_notMem_reads
      exact absurd entry (none pipeI ptr)
    have searched := loop_preserves (fun filled round => filled.recordEndpoint round) start ended
    obtain ⟨epI, k, same, ends⟩ := searched.fills (j + 1) (some ptr) entry
    obtain rfl : j = epI := by omega
    exact ⟨k, ends⟩

/-- A pipe that is filled from the chosen interface's own endpoint shows that no endpoint stands in front of it. -/
theorem endpointsBefore_of_filled {s' : State} (returned : usbConfigureDevice env address mem udev = some (0, s'))
    (positive : ∀ k, (place (bLength s.conf) k : ℤ) < selection.confSize →
      0 < bLength s.conf (place (bLength s.conf) k)) {m j k : ℕ} (endpoint : IsEndpoint s.conf selection.confSize m j k)
    (filled : s'.Filled j (place (bLength s.conf) k)) : endpointsBefore s.conf m = 0 := by
  obtain ⟨k', same, -, number⟩ := ends_of_filled select returned filled
  have inside := same ▸ endpoint.inside
  obtain rfl : k = k' := place_injective positive endpoint.inside inside same
  have own := endpoint.number
  rw [endpointsBefore] at own
  omega

theorem ownEndpoints_of_first
    (wellFormed : WellFormed s.conf selection.confSize) (few : bNumEndpoints s.conf selection.confIfc < maxUsbPipes)
    (first : bNumEndpoints s.conf selection.confIfc = 0 ∨ FirstWithEndpoints s.conf selection.confIfc) :
    OwnEndpoints env address mem udev selection s.conf := by
  obtain ⟨m, here, type, within⟩ := exists_chosen select
  have inside := within wellFormed.received
  have own (j : ℕ) (less : j < bNumEndpoints s.conf selection.confIfc) :
      ∃ k, IsEndpoint s.conf selection.confSize m j k ∧ endpointsBefore s.conf k = j := by
    have none := first.resolve_left (by omega)
    rw [← here] at none less
    obtain ⟨k, endpoint⟩ := wellFormed.exists_endpoint inside type less
    have number := endpoint.number
    rw [(firstWithEndpoints_iff wellFormed.positive inside).1 none, Nat.zero_add] at number
    exact ⟨k, endpoint, number⟩
  obtain ⟨s₁, record, filled⟩ := State.recordEndpoints_filled env own
  refine ⟨s₁.finish env address selection, ?_, m, here, fun j less => ⟨by omega, ?_⟩⟩
  · rw [usbConfigureDevice, select]
    simp [record]
  · obtain ⟨k, endpoint, filled⟩ := filled j less
    exact ⟨k, endpoint, filled.finish⟩

theorem first_of_ownEndpoints
    (wellFormed : WellFormed s.conf selection.confSize) (own : OwnEndpoints env address mem udev selection s.conf) :
    bNumEndpoints s.conf selection.confIfc < maxUsbPipes ∧
      (bNumEndpoints s.conf selection.confIfc = 0 ∨ FirstWithEndpoints s.conf selection.confIfc) := by
  obtain ⟨s', returned, m, here, own⟩ := own
  rcases Nat.eq_zero_or_pos (bNumEndpoints s.conf selection.confIfc) with zero | some
  · rw [zero]
    exact ⟨by decide, .inl rfl⟩
  · obtain ⟨bound, -⟩ := own (bNumEndpoints s.conf selection.confIfc - 1) (by omega)
    obtain ⟨-, k, endpoint, filled⟩ := own 0 some
    refine ⟨by omega, .inr ?_⟩
    have inside : (place (bLength s.conf) m : ℤ) < selection.confSize := by
      have mono := place_mono (bLength s.conf) endpoint.behind.le
      have last := endpoint.inside
      omega
    rw [← here, firstWithEndpoints_iff wellFormed.positive inside]
    exact endpointsBefore_of_filled select returned wellFormed.positive endpoint filled

end

/-- The pipes get the endpoints of the chosen interface exactly if there are not too many of them, and if it has none
or no other endpoint stands in front of it. -/
theorem ownEndpoints_iff (select : selectDriver env mem udev = some (some selection, s))
    (wellFormed : WellFormed s.conf selection.confSize) :
    OwnEndpoints env address mem udev selection s.conf ↔
      bNumEndpoints s.conf selection.confIfc < maxUsbPipes ∧
        (bNumEndpoints s.conf selection.confIfc = 0 ∨ FirstWithEndpoints s.conf selection.confIfc) :=
  ⟨first_of_ownEndpoints select wellFormed, fun ⟨few, first⟩ => ownEndpoints_of_first select wellFormed few first⟩

end

/-- The `n` records of a configuration, checked one by one. The endpoints of an interface are counted up to the next
one. -/
abbrev Records (bytes : ℕ → BitVec 8) (confSize : ℤ) (n : ℕ) : Prop :=
  (0 < confSize ∧ usbDevDescriptorSize + confSize ≤ buffSize ∧ confSize ≤ place (bLength bytes) n) ∧
    (∀ k < n, (place (bLength bytes) k : ℤ) < confSize ∧ 0 < bLength bytes (place (bLength bytes) k)) ∧
    ∀ m < n, HasType bytes usbInterfaceDescriptor (place (bLength bytes) m) →
      ∃ e ≤ n, m < e ∧ (∀ l < e, m < l → ¬HasType bytes usbInterfaceDescriptor (place (bLength bytes) l)) ∧
        (e = n ∨ HasType bytes usbInterfaceDescriptor (place (bLength bytes) e)) ∧
        endpointsBefore bytes e = endpointsBefore bytes m + bNumEndpoints bytes (place (bLength bytes) m)

theorem Records.wellFormed {bytes : ℕ → BitVec 8} {confSize : ℤ} (checked : Records bytes confSize n) :
    WellFormed bytes confSize := by
  obtain ⟨⟨received, fits, last⟩, records, endpoints⟩ := checked
  have less_of_inside (k : ℕ) (inside : (place (bLength bytes) k : ℤ) < confSize) : k < n := by
    by_contra many
    have mono := place_mono (bLength bytes) (not_lt.1 many)
    omega
  refine ⟨received, fits, fun k inside => (records k (less_of_inside k inside)).2, fun m inside interface => ?_⟩
  obtain ⟨e, le, behind, alone, stop, count⟩ := endpoints m (less_of_inside m inside) interface
  refine ⟨e, behind, fun k => ⟨fun follows => ⟨follows.behind, ?_⟩, fun ⟨lower, upper⟩ => ?_⟩, count⟩
  · by_contra notLess
    rcases stop with rfl | next
    · exact notLess (less_of_inside k follows.inside)
    · exact follows.alone e (not_lt.1 notLess) behind next
  · exact ⟨lower, (records k (by omega)).1, fun l le => alone l (by omega)⟩

/-- What the search for a driver ends with, by a check of the result. -/
theorem exists_selected {env : Env} {mem : ℕ → BitVec 8} {udev : UsbDev} {check : Selection → State → Bool}
    (run : (selectDriver env mem udev).map (fun result => result.1.map (check · result.2)) = some (some true)) :
    ∃ selection s, selectDriver env mem udev = some (some selection, s) ∧ check selection s = true := by
  rcases select : selectDriver env mem udev with _ | ⟨_ | selection, s⟩
  · rw [select] at run
    cases run
  · rw [select] at run
    cases run
  · rw [select] at run
    exact ⟨selection, s, rfl, some.inj (some.inj run)⟩

theorem ownEndpoints_flashDrive :
    ∃ selection s, selectDriver (scripted [singleConfiguration, flashDrive, flashDrive]) (fun _ => 0) plain =
        some (some selection, s) ∧ bNumEndpoints s.conf selection.confIfc = 2 ∧
      OwnEndpoints (scripted [singleConfiguration, flashDrive, flashDrive]) 1 (fun _ => 0) plain selection s.conf := by
  have checked : ∃ selection s,
      selectDriver (scripted [singleConfiguration, flashDrive, flashDrive]) (fun _ => 0) plain =
        some (some selection, s) ∧ decide (Records s.conf selection.confSize 4 ∧
          place (bLength s.conf) 1 = selection.confIfc ∧ (place (bLength s.conf) 1 : ℤ) < selection.confSize ∧
          endpointsBefore s.conf 1 = 0 ∧ bNumEndpoints s.conf selection.confIfc = 2) = true :=
    exists_selected (by decide)
  obtain ⟨selection, s, select, checked⟩ := checked
  obtain ⟨records, here, inside, first, two⟩ := of_decide_eq_true checked
  have few : bNumEndpoints s.conf selection.confIfc < maxUsbPipes := by
    rw [two]
    decide
  refine ⟨selection, s, select, two, (ownEndpoints_iff select records.wellFormed).2 ⟨few, .inr ?_⟩⟩
  rw [← here]
  exact (firstWithEndpoints_iff records.wellFormed.positive inside).2 first

/-- A configuration with two interfaces: one of class 0xff, with an endpoint but no driver, and another. -/
def composite : List (BitVec 8) :=
  [9, 2, 48, 0, 2, 1, 0, 0x80, 50, 9, 4, 0, 0, 1, 0xff, 0, 0, 0, 7, 5, 0x83, 3, 8, 0, 10,
    9, 4, 1, 0, 2, 8, 6, 0x50, 0, 7, 5, 0x81, 2, 64, 0, 0, 7, 5, 2, 2, 64, 0, 0]

/-- The driver of the second interface is chosen, and its first pipe is the endpoint of the first interface. -/
theorem endpoint_of_other_interface :
    (∃ selection s, selectDriver (scripted [singleConfiguration, composite, composite]) (fun _ => 0) plain =
        some (some selection, s) ∧ WellFormed s.conf selection.confSize ∧
      ¬OwnEndpoints (scripted [singleConfiguration, composite, composite]) 1 (fun _ => 0) plain selection s.conf) ∧
    (usbConfigureDevice (scripted [singleConfiguration, composite, composite]) 1 (fun _ => 0) plain).map
      (fun result => ((result.2.udev.pipe 1).epAddress, (result.2.udev.pipe 2).epAddress)) = some (3, 1) := by
  constructor
  · have checked : ∃ selection s,
        selectDriver (scripted [singleConfiguration, composite, composite]) (fun _ => 0) plain =
          some (some selection, s) ∧ decide (Records s.conf selection.confSize 6 ∧
            place (bLength s.conf) 3 = selection.confIfc ∧ (place (bLength s.conf) 3 : ℤ) < selection.confSize ∧
            endpointsBefore s.conf 3 = 1 ∧ bNumEndpoints s.conf selection.confIfc = 2) = true :=
      exists_selected (by decide)
    obtain ⟨selection, s, select, checked⟩ := checked
    obtain ⟨records, here, inside, second, two⟩ := of_decide_eq_true checked
    refine ⟨selection, s, select, records.wellFormed, fun own => ?_⟩
    rcases (first_of_ownEndpoints select records.wellFormed own).2 with zero | first
    · omega
    · rw [← here, firstWithEndpoints_iff records.wellFormed.positive inside] at first
      omega
  · decide

end MicroOs.Enumeration
