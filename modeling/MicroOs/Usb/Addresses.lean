import MicroOs.Usb.HotPlug

/-! # The addresses of devices

For a new device `usb_hub_scan_ports` asks the host controller for an address. The controller has a counter that is
never reset, and returns its last eight bits. USB has addresses from 1 to 127: the counter passes them, and after 256
connections it comes back to addresses that may still be in use.
-/

namespace MicroOs.Usb

open Hubs Function

variable {π : Type*} [DecidableEq π]

/-- The ports of one host controller with its counter and the addresses of the devices. -/
structure Bus (π : Type*) where
  hubs : Hubs π := {}
  /-- `uh->next_address`, an `int` -/
  nextAddress : BitVec 32 := 1#32
  /-- `udev->address` -/
  address : ℕ → BitVec 8 := fun _ => 0#8

namespace Bus

def uhciGetNextAddress (b : Bus π) : BitVec 8 := b.nextAddress.setWidth 8

def Connects (b : Bus π) (p : π) (o : Observation) : Prop :=
  (b.hubs.port p).status = .disconnected ∧ o.status ≠ .disconnected ∧ o.memory = true

instance (b : Bus π) (p : π) (o : Observation) : Decidable (b.Connects p o) :=
  inferInstanceAs (Decidable (_ ∧ _ ∧ _))

/-- One turn of the loop of `usb_hub_scan_ports`. A device for which there is no driver keeps address 0. -/
def scanPort (b : Bus π) (p : π) (o : Observation) : Bus π :=
  let b' := { b with hubs := (b.hubs.scanPort p o).1 }
  if b.Connects p o then
    let address := if (usbConfigureDevice o.drivers o.configurations).isSome then b.uhciGetNextAddress else 0#8
    { b' with
      nextAddress := b.nextAddress + 1
      address := update b.address b.hubs.allocated address }
  else b'

/-- The address for the next device is one of USB's, and no attached device has it. -/
structure NextIsFree (b : Bus π) : Prop where
  range : 1 ≤ b.uhciGetNextAddress.toNat ∧ b.uhciGetNextAddress.toNat ≤ 127
  free : ∀ p dev, (b.hubs.port p).udev = some dev → b.address dev ≠ b.uhciGetNextAddress

/-- The number of connections decides the next address. -/
structure Assigned (b : Bus π) : Prop where
  next : b.nextAddress = BitVec.ofNat 32 (b.hubs.allocated + 1)
  known : ∀ p dev, (b.hubs.port p).udev = some dev → dev < b.hubs.allocated
  address : ∀ dev < b.hubs.allocated,
    b.address dev = if (b.hubs.udd dev).isSome then BitVec.ofNat 8 (dev + 1) else 0#8

end Bus

inductive BusStep : Bus π → π × Observation → Bus π → Prop
  | visit {b : Bus π} {p : π} {o : Observation} (running : b.hubs.wild = false) : BusStep b (p, o) (b.scanPort p o)

variable {b b' : Bus π} {p : π} {o : Observation} {event : π × Observation} {events : List (π × Observation)}

theorem Bus.Connects.scanPort (connects : b.Connects p o) :
    (b.hubs.scanPort p o).1 = (b.hubs.noted p o).connect p o := by
  obtain ⟨before, status, memory⟩ := connects
  simp [Hubs.scanPort, before, status, memory]

theorem Hubs.udd_disconnect (s : Hubs π) (p : π) (dev : ℕ) : (s.disconnect p dev).udd = s.udd := by
  unfold disconnect usbFreeDevice
  cases driver : s.udd dev with
  | none => simp [call, driver]
  | some udd => cases running : s.wild <;> simp [call, setPort, driver, running]

theorem Hubs.udev_disconnect {s : Hubs π} {q : π} {dev other : ℕ}
    (held : ((s.disconnect p dev).port q).udev = some other) : (s.port q).udev = some other := by
  revert held
  unfold disconnect usbFreeDevice
  cases driver : s.udd dev with
  | none => simp [call, driver]
  | some udd =>
    by_cases same : q = p <;> cases running : s.wild <;> simp [call, setPort, driver, running, same]

theorem Bus.scanPort_of_not_connects (stays : ¬b.Connects p o) :
    (b.hubs.scanPort p o).1 = b.hubs.noted p o ∨
      ∃ dev, (b.hubs.scanPort p o).1 = (b.hubs.noted p o).disconnect p dev := by
  unfold Hubs.scanPort
  by_cases gone : (b.hubs.port p).status ≠ .disconnected ∧ o.status = .disconnected
  · rw [if_pos gone]
    cases ((b.hubs.noted p o).port p).udev with
    | none => exact .inl rfl
    | some dev => exact .inr ⟨dev, rfl⟩
  · rw [if_neg gone]
    by_cases come : (b.hubs.port p).status = .disconnected ∧ o.status ≠ .disconnected
    · have full : ¬o.memory = true := fun memory => stays ⟨come.1, come.2, memory⟩
      rw [if_pos come, if_neg full]
      exact .inl rfl
    · rw [if_neg come]
      exact .inl rfl

namespace Bus.Assigned

omit [DecidableEq π] in
theorem init : Assigned ({} : Bus π) where
  next := rfl
  known _ _ held := nomatch held
  address _ known := absurd known (Nat.not_lt_zero _)

omit [DecidableEq π] in
theorem uhciGetNextAddress (assigned : Assigned b) : b.uhciGetNextAddress = BitVec.ofNat 8 (b.hubs.allocated + 1) := by
  rw [Bus.uhciGetNextAddress, assigned.next, BitVec.setWidth_ofNat_of_le (by decide)]

theorem connect (assigned : Assigned b) (connects : b.Connects p o) : Assigned (b.scanPort p o) := by
  rw [scanPort, if_pos connects]
  simp only [connects.scanPort]
  refine ⟨?_, ?_, ?_⟩
  · show b.nextAddress + 1 = BitVec.ofNat 32 (b.hubs.allocated + 1 + 1)
    rw [assigned.next, BitVec.ofNat_add (b.hubs.allocated + 1)]
    rfl
  · intro q dev held
    rw [udev_connect] at held
    by_cases same : q = p
    · rw [if_pos same] at held
      cases held
      exact Nat.lt_succ_self _
    · rw [if_neg same, udev_noted] at held
      exact Nat.lt_succ_of_lt (assigned.known q dev held)
  · intro dev known
    show update b.address b.hubs.allocated _ dev =
      if (update b.hubs.udd b.hubs.allocated _ dev).isSome then _ else _
    rcases Nat.lt_succ_iff_lt_or_eq.1 (show dev < b.hubs.allocated + 1 from known) with old | rfl
    · rw [update_of_ne old.ne, update_of_ne old.ne]
      exact assigned.address dev old
    · rw [update_self, update_self, assigned.uhciGetNextAddress]

omit [DecidableEq π] in
theorem congr {hubs : Hubs π} (assigned : Assigned b) (allocated : hubs.allocated = b.hubs.allocated)
    (udd : hubs.udd = b.hubs.udd) (held : ∀ p dev, (hubs.port p).udev = some dev → (b.hubs.port p).udev = some dev) :
    Assigned { b with hubs } where
  next := by simpa only [allocated] using assigned.next
  known p dev here := by simpa only [allocated] using assigned.known p dev (held p dev here)
  address := by simpa only [allocated, udd] using assigned.address

theorem step (assigned : Assigned b) (taken : BusStep b event b') : Assigned b' := by
  cases taken with
  | @visit p o running =>
    by_cases connects : b.Connects p o
    · exact assigned.connect connects
    · have noted (q : π) (dev : ℕ) (held : ((b.hubs.noted p o).port q).udev = some dev) :
          (b.hubs.port q).udev = some dev := by rwa [udev_noted] at held
      rw [scanPort, if_neg connects]
      rcases scanPort_of_not_connects connects with same | ⟨dev, same⟩
      · rw [same]
        exact assigned.congr rfl rfl noted
      · rw [same]
        exact assigned.congr (allocated_disconnect ..) (udd_disconnect ..) fun q other held =>
          noted q other (udev_disconnect held)

end Bus.Assigned

theorem assigned_of_run (run : Run BusStep ({} : Bus π) events b) : b.Assigned :=
  run.invariant Bus.Assigned (fun assigned taken => assigned.step taken) .init

/-- The next address is one of USB's and not in use exactly if the last eight bits of the number of connections say
so and no device that came a multiple of 256 connections before is still attached. -/
theorem address_assignment_iff (run : Run BusStep ({} : Bus π) events b) :
    b.NextIsFree ↔ (1 ≤ (b.hubs.allocated + 1) % 256 ∧ (b.hubs.allocated + 1) % 256 ≤ 127) ∧
      ∀ p dev, (b.hubs.port p).udev = some dev → b.hubs.udd dev ≠ none → dev % 256 ≠ b.hubs.allocated % 256 := by
  have assigned := assigned_of_run run
  have value : b.uhciGetNextAddress.toNat = (b.hubs.allocated + 1) % 256 := by
    rw [assigned.uhciGetNextAddress, BitVec.toNat_ofNat]
  have same {dev : ℕ} : BitVec.ofNat 8 (dev + 1) = b.uhciGetNextAddress ↔ dev % 256 = b.hubs.allocated % 256 := by
    rw [← BitVec.toNat_inj, BitVec.toNat_ofNat]
    omega
  constructor
  · intro free
    have range := free.range
    rw [value] at range
    refine ⟨range, fun p dev held driver again => free.free p dev held ?_⟩
    rw [assigned.address dev (assigned.known p dev held), if_pos (Option.isSome_iff_ne_none.2 driver)]
    exact same.2 again
  · rintro ⟨range, apart⟩
    rw [← value] at range
    refine ⟨range, fun p dev held => ?_⟩
    rw [assigned.address dev (assigned.known p dev held)]
    by_cases driver : (b.hubs.udd dev).isSome
    · rw [if_pos driver]
      exact fun again => apart p dev held (Option.isSome_iff_ne_none.1 driver) (same.1 again)
    · rw [if_neg driver]
      intro zero
      rw [← zero] at range
      exact absurd range.1 (by decide)

/-- The second device, while the first one is attached. -/
theorem address_assignment_second : ∃ b : Bus Bool,
    Run BusStep {} [(true, plugged [[⟨0x08#8, 0x06#8, 0x50#8⟩]])] b ∧ b.NextIsFree := by
  have run : Run BusStep ({} : Bus Bool) [(true, plugged [[⟨0x08#8, 0x06#8, 0x50#8⟩]])] _ := .single (.visit rfl)
  refine ⟨_, run, (address_assignment_iff run).2 ⟨by decide, ?_⟩⟩
  intro p dev held _
  cases p with
  | true =>
    cases held
    decide
  | false => cases held

/-- A stick that the mass storage driver handles, and what is found when it has gone. -/
def stick : Observation := plugged [[⟨0x08#8, 0x06#8, 0x50#8⟩]]
def unplugged : Observation := { status := .disconnected }

theorem reconnect {b : Bus Unit} (running : b.hubs.wild = false) (port : b.hubs.port () = {}) :
    (b.scanPort () stick).hubs.wild = false ∧
      ((b.scanPort () stick).scanPort () unplugged).hubs.wild = false ∧
      ((b.scanPort () stick).scanPort () unplugged).hubs.port () = {} ∧
      ((b.scanPort () stick).scanPort () unplugged).hubs.allocated = b.hubs.allocated + 1 := by
  have driver : usbConfigureDevice [usbMassStorageDriver] [[⟨8#8, 6#8, 80#8⟩]] = some usbMassStorageDriver := by decide
  simp [Bus.scanPort, Bus.Connects, Hubs.scanPort, Hubs.noted, setPort, Hubs.connect, call, disconnect,
    usbFreeDevice, port, running, driver, stick, unplugged, plugged]

theorem exists_reconnected (n : ℕ) : ∃ (events : List (Unit × Observation)) (b : Bus Unit), Run BusStep {} events b ∧
    b.hubs.wild = false ∧ b.hubs.port () = {} ∧ b.hubs.allocated = n := by
  induction n with
  | zero => exact ⟨[], {}, .nil _, rfl, rfl, rfl⟩
  | succ n ih =>
    obtain ⟨events, b, run, running, port, allocated⟩ := ih
    obtain ⟨connected, running', port', allocated'⟩ := reconnect running port
    exact ⟨_, _, (run.snoc (.visit running)).snoc (.visit connected), running', port', by rw [allocated', allocated]⟩

/-- The 128th connection is for address 128. -/
theorem address_128_assigned : ∃ (events : List (Unit × Observation)) (b : Bus Unit), Run BusStep {} events b ∧
    b.hubs.wild = false ∧ b.Connects () stick ∧ b.uhciGetNextAddress = 128#8 ∧ ¬b.NextIsFree := by
  obtain ⟨events, b, run, running, port, allocated⟩ := exists_reconnected 127
  have wrong : ¬b.NextIsFree := by
    rw [address_assignment_iff run, allocated]
    exact fun right => absurd right.1 (by decide)
  refine ⟨events, b, run, running, ?_, ?_, wrong⟩
  · rw [Bus.Connects, port]
    decide
  · rw [(assigned_of_run run).uhciGetNextAddress, allocated]

end MicroOs.Usb
