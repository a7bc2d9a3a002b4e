import MicroOs.Library.Run

/-! # Devices come and go

`usb_hub_scan_ports` looks at one port after another. When a device has appeared it allocates a `struct usb_dev` and
looks for a driver; when the device has gone it frees the structure again. `usb_free_device` calls the `free` function
of the driver, whether there is a driver or not, and frees the structure itself, and then the scan frees it once more.

Devices are numbered in the order in which they are allocated, so that an address that `kzalloc` returns again stands
for another device.
-/

namespace MicroOs.Usb

open List

structure Driver where
  classCode : BitVec 8
  subclassCode : BitVec 8
  protocolCode : BitVec 8
deriving DecidableEq

structure Interface where
  classCode : BitVec 8
  subclassCode : BitVec 8
  protocolCode : BitVec 8

/-- `usb_lookup_driver`: the first registered driver for the class and the protocol. -/
def usbLookupDriver (drivers : List Driver) (interface : Interface) : Option Driver :=
  drivers.find? fun udd => interface.classCode == udd.classCode && interface.protocolCode == udd.protocolCode

/-- The driver that `usb_configure_device` attaches, by the interfaces in front of the first broken one. -/
def usbConfigureDevice (drivers : List Driver) (configurations : List (List Interface)) : Option Driver :=
  configurations.findSome? fun interfaces => interfaces.findSome? (usbLookupDriver drivers)

inductive PortStatus
  | disconnected | disabled | enabled | suspended
deriving DecidableEq

structure Port where
  status : PortStatus := .disconnected
  udev : Option ℕ := none

inductive Call
  | kzalloc (dev : ℕ)
  /-- `udev->udd->free(udev)`, with what `udd` points to -/
  | driverFree (dev : ℕ) (udd : Option Driver)
  | kfree (dev : ℕ)
deriving DecidableEq

/-- The ports of all hubs, the driver of each device, and the calls made so far. -/
structure Hubs (π : Type*) where
  port : π → Port := fun _ => {}
  udd : ℕ → Option Driver := fun _ => none
  allocated : ℕ := 0
  calls : List Call := []
  /-- a function has been called through a null pointer; nothing is known of what follows -/
  wild : Bool := false

/-- What a scan finds at a port: its status, memory for a new device, the registered drivers and what the device says
of itself. -/
structure Observation where
  status : PortStatus
  memory : Bool := true
  drivers : List Driver := []
  configurations : List (List Interface) := []

namespace Hubs

variable {π : Type*} [DecidableEq π] (s : Hubs π)

def call (call : Call) : Hubs π := { s with calls := s.calls ++ [call] }

def setPort (p : π) (port : Port) : Hubs π := { s with port := Function.update s.port p port }

def usbFreeDevice (dev : ℕ) : Hubs π :=
  let s := s.call (.driverFree dev (s.udd dev))
  match s.udd dev with
  | none => { s with wild := true }
  | some _ => s.call (.kfree dev)

def disconnect (p : π) (dev : ℕ) : Hubs π :=
  let s := s.usbFreeDevice dev
  if s.wild then s
  else (s.call (.kfree dev)).setPort p { s.port p with udev := none }

/-- A device has been connected, and there is memory for it. -/
def connect (p : π) (o : Observation) : Hubs π :=
  let dev := s.allocated
  let s := ({ s with allocated := dev + 1 }.call (.kzalloc dev)).setPort p { s.port p with udev := some dev }
  { s with udd := Function.update s.udd dev (usbConfigureDevice o.drivers o.configurations) }

def noted (p : π) (o : Observation) : Hubs π := s.setPort p { s.port p with status := o.status }

/-- One turn of the inner loop of `usb_hub_scan_ports`, and whether the loop goes on. -/
def scanPort (p : π) (o : Observation) : Hubs π × Bool :=
  let previous := (s.port p).status
  let s := s.noted p o
  if previous ≠ .disconnected ∧ o.status = .disconnected then
    match (s.port p).udev with
    | none => (s, true)
    | some dev => (s.disconnect p dev, true)
  else if previous = .disconnected ∧ o.status ≠ .disconnected then
    if o.memory then (s.connect p o, true) else (s, false)
  else (s, true)

def scanHub (found : π → Observation) : List π → Hubs π → Hubs π
  | [], s => s
  | p :: ports, s =>
    if s.wild then s
    else if (s.scanPort p (found p)).2 then scanHub found ports (s.scanPort p (found p)).1
    else (s.scanPort p (found p)).1

def usbHubScanPorts (found : π → Observation) (hubs : List (List π)) : Hubs π :=
  hubs.foldl (fun s ports => s.scanHub found ports) s

end Hubs

variable {π : Type*} [DecidableEq π]

inductive ScanStep : Hubs π → π × Observation → Hubs π → Prop
  | visit {s : Hubs π} {p : π} {o : Observation} (running : s.wild = false) :
      ScanStep s (p, o) (s.scanPort p o).1

variable {s s' : Hubs π} {p : π} {o : Observation} {event : π × Observation} {events : List (π × Observation)} {dev : ℕ}

/-- A scan of a hub looks at some of its ports, one after another. -/
theorem Hubs.scanHub_run (found : π → Observation) (ports : List π) (s : Hubs π) :
    ∃ events, Run ScanStep s events (s.scanHub found ports) := by
  induction ports generalizing s with
  | nil => exact ⟨[], .nil s⟩
  | cons p ports ih =>
    unfold Hubs.scanHub
    cases running : s.wild with
    | true => exact ⟨[], .nil s⟩
    | false =>
      have first : ScanStep s (p, found p) (s.scanPort p (found p)).1 := .visit running
      cases (s.scanPort p (found p)).2 with
      | false => exact ⟨_, .single first⟩
      | true =>
        obtain ⟨events, rest⟩ := ih (s.scanPort p (found p)).1
        exact ⟨_, (Run.single first).append rest⟩

/-- So does a scan of all hubs. -/
theorem Hubs.usbHubScanPorts_run (found : π → Observation) (hubs : List (List π)) (s : Hubs π) :
    ∃ events, Run ScanStep s events (s.usbHubScanPorts found hubs) := by
  induction hubs generalizing s with
  | nil => exact ⟨[], .nil s⟩
  | cons ports hubs ih =>
    obtain ⟨events, first⟩ := s.scanHub_run found ports
    obtain ⟨events', rest⟩ := ih (s.scanHub found ports)
    exact ⟨_, first.append rest⟩

section Ports

variable (s : Hubs π) (p q : π) (o : Observation)

theorem Hubs.status_noted : ((s.noted p o).port q).status = if q = p then o.status else (s.port q).status := by
  by_cases same : q = p <;> simp [Hubs.noted, Hubs.setPort, same]

theorem Hubs.udev_noted : ((s.noted p o).port q).udev = (s.port q).udev := by
  by_cases same : q = p <;> simp [Hubs.noted, Hubs.setPort, same]

theorem Hubs.status_connect : ((s.connect p o).port q).status = (s.port q).status := by
  by_cases same : q = p <;> simp [Hubs.connect, Hubs.call, Hubs.setPort, same]

theorem Hubs.udev_connect : ((s.connect p o).port q).udev = if q = p then some s.allocated else (s.port q).udev := by
  by_cases same : q = p <;> simp [Hubs.connect, Hubs.call, Hubs.setPort, same]

theorem Hubs.calls_disconnect (dev : ℕ) (running : s.wild = false) :
    (s.disconnect p dev).calls = s.calls ++ match s.udd dev with
      | none => [.driverFree dev none]
      | some udd => [.driverFree dev (some udd), .kfree dev, .kfree dev] := by
  unfold Hubs.disconnect Hubs.usbFreeDevice
  cases driver : s.udd dev with
  | none => simp [Hubs.call, driver]
  | some udd => simp [Hubs.call, Hubs.setPort, driver, running]

theorem Hubs.allocated_disconnect (dev : ℕ) : (s.disconnect p dev).allocated = s.allocated := by
  unfold Hubs.disconnect Hubs.usbFreeDevice
  cases driver : s.udd dev with
  | none => simp [Hubs.call, driver]
  | some udd => cases running : s.wild <;> simp [Hubs.call, Hubs.setPort, driver, running]

end Ports

/-- A visit notes the status. It may find that a device has gone or that one has come. -/
inductive Visit (s : Hubs π) (p : π) (o : Observation) : Hubs π → Prop
  | noted (kept : o.status = .disconnected → (s.port p).status = .disconnected ∨ (s.port p).udev = none) :
      Visit s p o (s.noted p o)
  | gone {dev : ℕ} (held : (s.port p).udev = some dev) (status : o.status = .disconnected) :
      Visit s p o ((s.noted p o).disconnect p dev)
  | come (before : (s.port p).status = .disconnected) (status : o.status ≠ .disconnected) :
      Visit s p o ((s.noted p o).connect p o)

theorem Hubs.visit_scanPort (s : Hubs π) (p : π) (o : Observation) : Visit s p o (s.scanPort p o).1 := by
  unfold Hubs.scanPort
  by_cases gone : (s.port p).status ≠ .disconnected ∧ o.status = .disconnected
  · rw [if_pos gone, Hubs.udev_noted]
    cases held : (s.port p).udev with
    | none => exact .noted fun _ => .inr held
    | some dev => exact .gone held gone.2
  · have kept : o.status = .disconnected → (s.port p).status = .disconnected ∨ (s.port p).udev = none := by
      intro now
      by_contra other
      exact gone ⟨fun before => other (.inl before), now⟩
    rw [if_neg gone]
    by_cases come : (s.port p).status = .disconnected ∧ o.status ≠ .disconnected
    · rw [if_pos come]
      cases o.memory with
      | true => exact .come come.1 come.2
      | false => exact .noted kept
    · rw [if_neg come]
      exact .noted kept

theorem ScanStep.visit_of (taken : ScanStep s event s') : s.wild = false ∧ Visit s event.1 event.2 s' := by
  cases taken with
  | visit running => exact ⟨running, s.visit_scanPort _ _⟩

/-- Devices are freed once, when they are disconnected, and drivers are asked for their own devices only. -/
structure LifeCycle (s : Hubs π) : Prop where
  attached : ∀ p dev, (s.port p).udev = some dev → s.calls.count (.kfree dev) = 0
  detached : ∀ dev < s.allocated, (∀ p, (s.port p).udev ≠ some dev) → s.calls.count (.kfree dev) = 1
  driver : ∀ dev, .driverFree dev none ∉ s.calls
  vacant : ∀ p, (s.port p).status = .disconnected → (s.port p).udev = none

/-- The visit does not find that an attached device has gone. -/
def KeepsDevice (s : Hubs π) : π × Observation → Prop
  | (p, o) => (s.port p).udev ≠ none → o.status ≠ .disconnected

/-- What holds as long as no device has gone. -/
structure Attached (s : Hubs π) : Prop where
  known : ∀ p dev, (s.port p).udev = some dev → dev < s.allocated
  held : ∀ dev < s.allocated, ∃ p, (s.port p).udev = some dev
  vacant : ∀ p, (s.port p).status = .disconnected → (s.port p).udev = none
  calls : ∀ call ∈ s.calls, ∃ dev, call = .kzalloc dev

namespace Attached

omit [DecidableEq π] in
theorem init : Attached ({} : Hubs π) where
  known _ _ held := nomatch held
  held _ known := absurd known (Nat.not_lt_zero _)
  vacant _ _ := rfl
  calls _ member := nomatch member

omit [DecidableEq π] in
theorem lifeCycle (attached : Attached s) : LifeCycle s where
  attached p dev _ := by
    rw [count_eq_zero]
    intro freed
    obtain ⟨_, same⟩ := attached.calls _ freed
    cases same
  detached dev known gone := by
    obtain ⟨p, held⟩ := attached.held dev known
    exact absurd held (gone p)
  driver dev freed := by
    obtain ⟨_, same⟩ := attached.calls _ freed
    cases same
  vacant := attached.vacant

theorem noted (attached : Attached s) (keeps : KeepsDevice s (p, o)) : Attached (s.noted p o) where
  known q dev held := attached.known q dev (by rwa [Hubs.udev_noted] at held)
  held dev known := by
    obtain ⟨q, held⟩ := attached.held dev known
    exact ⟨q, by rw [Hubs.udev_noted, held]⟩
  vacant q status := by
    rw [Hubs.status_noted] at status
    rw [Hubs.udev_noted]
    by_cases same : q = p
    · subst same
      by_contra held
      exact keeps held (by simpa using status)
    · exact attached.vacant q (by simpa [same] using status)
  calls := attached.calls

theorem connect (attached : Attached s) (free : (s.port p).udev = none) (status : (s.port p).status ≠ .disconnected) :
    Attached (s.connect p o) where
  known q dev held := by
    rw [Hubs.udev_connect] at held
    by_cases same : q = p
    · rw [if_pos same] at held
      cases held
      exact Nat.lt_succ_self _
    · rw [if_neg same] at held
      exact Nat.lt_succ_of_lt (attached.known q dev held)
  held dev known := by
    rcases Nat.lt_succ_iff_lt_or_eq.1 (show dev < s.allocated + 1 from known) with old | rfl
    · obtain ⟨q, held⟩ := attached.held dev old
      have other : q ≠ p := by
        rintro rfl
        cases held.symm.trans free
      exact ⟨q, by rw [Hubs.udev_connect, if_neg other, held]⟩
    · exact ⟨p, by rw [Hubs.udev_connect, if_pos rfl]⟩
  vacant q gone := by
    rw [Hubs.status_connect] at gone
    have other : q ≠ p := by
      rintro rfl
      exact status gone
    rw [Hubs.udev_connect, if_neg other]
    exact attached.vacant q gone
  calls call member := by
    rcases mem_append.1 (show call ∈ s.calls ++ [.kzalloc s.allocated] from member) with old | new
    · exact attached.calls call old
    · exact ⟨_, mem_singleton.1 new⟩

/-- As long as no device goes, each one allocated stays at a port. -/
theorem step (attached : Attached s) (taken : Guarded KeepsDevice ScanStep s event s') : Attached s' := by
  obtain ⟨keeps, taken⟩ := taken
  obtain ⟨-, visit⟩ := taken.visit_of
  have noted := attached.noted keeps
  cases visit with
  | noted kept => exact noted
  | gone held status => exact absurd status (keeps (by simp [held]))
  | come before status =>
    apply noted.connect
    · rw [Hubs.udev_noted]
      exact attached.vacant _ before
    · rw [Hubs.status_noted, if_pos rfl]
      exact status

end Attached

/-- A device has been freed twice, or a driver asked for a device without one. -/
def Mishandled (s : Hubs π) : Prop :=
  ∃ dev, dev < s.allocated ∧ 2 ≤ s.calls.count (.kfree dev) ∨ .driverFree dev none ∈ s.calls

omit [DecidableEq π] in
theorem Mishandled.not_lifeCycle (mishandled : Mishandled s) : ¬LifeCycle s := by
  intro life
  obtain ⟨dev, ⟨known, twice⟩ | null⟩ := mishandled
  · by_cases held : ∃ p, (s.port p).udev = some dev
    · obtain ⟨p, held⟩ := held
      have none := life.attached p dev held
      omega
    · have once := life.detached dev known fun p same => held ⟨p, same⟩
      omega
  · exact life.driver dev null

/-- What has gone wrong stays wrong. -/
theorem Mishandled.step (mishandled : Mishandled s) (taken : ScanStep s event s') : Mishandled s' := by
  obtain ⟨running, visit⟩ := taken.visit_of
  obtain ⟨more, later, grown⟩ : ∃ calls, s'.calls = s.calls ++ calls ∧ s.allocated ≤ s'.allocated := by
    cases visit with
    | noted kept => exact ⟨[], (append_nil _).symm, le_rfl⟩
    | gone held status =>
      refine ⟨_, Hubs.calls_disconnect _ _ _ running, ?_⟩
      rw [Hubs.allocated_disconnect]
      exact le_rfl
    | come before status => exact ⟨_, rfl, Nat.le_succ _⟩
  obtain ⟨dev, ⟨known, twice⟩ | null⟩ := mishandled
  · refine ⟨dev, .inl ⟨known.trans_le grown, ?_⟩⟩
    rw [later, count_append]
    exact twice.trans (Nat.le_add_right _ _)
  · refine ⟨dev, .inr ?_⟩
    rw [later]
    exact mem_append_left _ null

/-- The first device that goes is mishandled. -/
theorem Attached.gone (attached : Attached s) (taken : ScanStep s event s') (leaves : ¬KeepsDevice s event) :
    Mishandled s' := by
  obtain ⟨running, visit⟩ := taken.visit_of
  obtain ⟨p, o⟩ := event
  obtain ⟨held, status⟩ : (s.port p).udev ≠ none ∧ o.status = .disconnected := by
    simpa [KeepsDevice] using leaves
  cases visit with
  | noted kept =>
    rcases kept status with before | none
    · exact absurd (attached.vacant p before) held
    · exact absurd none held
  | come before now => exact absurd status now
  | @gone dev held status =>
    have calls := Hubs.calls_disconnect (s.noted p o) p dev running
    have known := attached.known p dev held
    refine ⟨dev, ?_⟩
    cases driver : (s.noted p o).udd dev with
    | none =>
      right
      rw [calls, driver]
      simp
    | some udd =>
      left
      rw [calls, driver]
      refine ⟨?_, ?_⟩
      · rw [Hubs.allocated_disconnect]
        exact known
      · simp [count_append]

/-- Devices are handled as they should be exactly as long as none has been disconnected. -/
theorem device_life_cycle_iff (run : Run ScanStep ({} : Hubs π) events s) :
    LifeCycle s ↔ Run (Guarded KeepsDevice ScanStep) {} events s := by
  have cases : Run (Guarded KeepsDevice ScanStep) {} events s ∨ Mishandled s := by
    induction run with
    | nil => exact .inl (.nil _)
    | @snoc middle target before event earlier last ih =>
      rcases ih with guarded | wrong
      · have attached := guarded.invariant Attached (fun attached taken => attached.step taken) .init
        by_cases keeps : KeepsDevice middle event
        · exact .inl (guarded.snoc ⟨keeps, last⟩)
        · exact .inr (attached.gone last keeps)
      · exact .inr (wrong.step last)
  constructor
  · intro life
    exact cases.resolve_right fun wrong => wrong.not_lifeCycle life
  · intro guarded
    exact (guarded.invariant Attached (fun attached taken => attached.step taken) .init).lifeCycle

/-- The codes of the mass storage driver and of a stick that it handles. -/
def usbMassStorageDriver : Driver := { classCode := 0x08#8, subclassCode := 0x06#8, protocolCode := 0x50#8 }

def plugged (configurations : List (List Interface)) : Observation :=
  { status := .enabled, drivers := [usbMassStorageDriver], configurations }

/-- A stick is disconnected: it is freed twice. For a device without a driver, a function is called through a null
pointer. -/
theorem disconnected_device_mishandled : ∃ s₁ s₂ : Hubs Unit,
    Run ScanStep {} [((), plugged [[⟨0x08#8, 0x06#8, 0x50#8⟩]]), ((), { status := .disconnected })] s₁ ∧
      s₁.calls = [.kzalloc 0, .driverFree 0 (some usbMassStorageDriver), .kfree 0, .kfree 0] ∧ ¬LifeCycle s₁ ∧
      Run ScanStep {} [((), plugged [[⟨0x03#8, 0x00#8, 0x00#8⟩]]), ((), { status := .disconnected })] s₂ ∧
      s₂.calls = [.kzalloc 0, .driverFree 0 none] ∧ ¬LifeCycle s₂ :=
  ⟨_, _, (Run.single (.visit rfl)).snoc (.visit rfl), by decide, Mishandled.not_lifeCycle ⟨0, .inl (by decide)⟩,
    (Run.single (.visit rfl)).snoc (.visit rfl), by decide, Mishandled.not_lifeCycle ⟨0, .inr (by decide)⟩⟩

/-- A stick that stays is in order. -/
theorem device_life_cycle_plugged : ∃ s : Hubs Unit,
    Run ScanStep {} [((), plugged [[⟨0x08#8, 0x06#8, 0x50#8⟩]])] s ∧ LifeCycle s := by
  have run : Run ScanStep ({} : Hubs Unit) [((), plugged [[⟨0x08#8, 0x06#8, 0x50#8⟩]])] _ := .single (.visit rfl)
  refine ⟨_, run, (device_life_cycle_iff run).mpr ?_⟩
  exact .single ⟨fun held => absurd rfl held, .visit rfl⟩

end MicroOs.Usb
