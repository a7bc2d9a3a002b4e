import MicroOs.Usb.Descriptors

/-! # Devices that send anything

Lengths and counts in the descriptors come from the device, and `usb_configure_device` checks none of them. Whether it
returns and stays inside of the buffer, the received configuration and the array of pipes is therefore up to the device.
The condition is found loop by loop: for the interfaces of one configuration, for the configurations, and for the
endpoints of the interface that is chosen.
-/

namespace MicroOs.Enumeration

open Usb SearchLoop RecordChain List Option

variable {bytes' bytes : ℕ → BitVec 8}

/-- The same memory, and no further transfer. -/
structure Unwritten (s s' : State) : Prop where
  mem : s'.mem = s.mem
  requests : s'.requests = s.requests

namespace Unwritten

variable {s s' s₁ : State}

theorem rfl : Unwritten s s := ⟨Eq.refl _, Eq.refl _⟩

theorem conf (same : Unwritten s s') : s'.conf = s.conf := by
  funext offset
  rw [State.conf, same.mem]
  exact Eq.refl _

theorem access (same : Unwritten s s') (accesses : List Access) : Unwritten s (s'.access accesses) :=
  ⟨same.mem, same.requests⟩

end Unwritten

/-- What is done about an interface whose descriptor was found. -/
def answer (drivers : List Driver) (bytes : ℕ → BitVec 8) (confIfc : ℕ) : Verdict (Option (ℕ × Driver)) :=
  match usbLookupDriver drivers (interfaceAt bytes confIfc) with
  | some udd => .stop (some (confIfc, udd))
  | none => .next

theorem next_eq_answer_iff {drivers : List Driver} {confIfc : ℕ} :
    .next = answer drivers bytes confIfc ↔ usbLookupDriver drivers (interfaceAt bytes confIfc) = none := by
  cases lookup : usbLookupDriver drivers (interfaceAt bytes confIfc) <;> simp [answer, lookup]

theorem stop_eq_answer_iff {drivers : List Driver} {confIfc : ℕ} {found : Option (ℕ × Driver)} :
    .stop found = answer drivers bytes confIfc ↔
      ∃ udd, usbLookupDriver drivers (interfaceAt bytes confIfc) = some udd ∧ found = some (confIfc, udd) := by
  cases lookup : usbLookupDriver drivers (interfaceAt bytes confIfc) <;> simp [answer, lookup]

/-- A round of the loop over the interfaces that stays inside of the configuration. -/
def InterfaceVerdict (drivers : List Driver) (bytes : ℕ → BitVec 8) (confSize : ℤ) (ifcI : ℕ)
    (v : Verdict (Option (ℕ × Driver))) : Prop :=
  v = .stop none ∧ Lookup bytes confSize usbInterfaceDescriptor ifcI none ∨
    ∃ confIfc : ℕ, Lookup bytes confSize usbInterfaceDescriptor ifcI (some confIfc) ∧ (confIfc : ℤ) + 7 < confSize ∧
      v = answer drivers bytes confIfc

variable {v : Verdict (Option (ℕ × Driver))}

theorem InterfaceVerdict.congr {drivers : List Driver} {confSize : ℤ} {ifcI : ℕ}
    (same : ∀ p : ℕ, (p : ℤ) < confSize → bytes p = bytes' p)
    (round : InterfaceVerdict drivers bytes confSize ifcI v) : InterfaceVerdict drivers bytes' confSize ifcI v := by
  rcases round with ⟨rfl, missing⟩ | ⟨confIfc, found, inside, rfl⟩
  · exact .inl ⟨rfl, missing.congr same⟩
  · refine .inr ⟨confIfc, found.congr same, inside, ?_⟩
    have codes : interfaceAt bytes confIfc = interfaceAt bytes' confIfc := by
      rw [interfaceAt, interfaceAt, same (confIfc + 5) (by omega), same (confIfc + 6) (by omega),
        same (confIfc + 7) (by omega)]
    rw [answer, answer, codes]

namespace State

variable {env : Env} {s s' s₁ : State} {confSize : ℤ} {confIfc ifcI : ℕ}

theorem scanInterface_missing (search : s.getDescriptorPtr usbInterfaceDescriptor ifcI confSize = some (none, s₁)) :
    s.scanInterface env confSize ifcI = some (.stop none, s₁) := by
  rw [scanInterface, search]
  rfl

theorem scanInterface_found
    (search : s.getDescriptorPtr usbInterfaceDescriptor ifcI confSize = some (some confIfc, s₁)) :
    s.scanInterface env confSize ifcI = some (answer env.drivers s₁.conf confIfc, s₁.adopt confSize confIfc) := by
  rw [scanInterface, search]
  simp only [bind_eq_bind, bind_some, answer]
  have codes : (s₁.adopt confSize confIfc).udev.interface = interfaceAt s₁.conf confIfc := rfl
  rw [codes]
  cases usbLookupDriver env.drivers (interfaceAt s₁.conf confIfc) <;> rfl

theorem contained_adopt : (s.adopt confSize confIfc).Contained ↔ s.Contained ∧ (confIfc : ℤ) + 7 < confSize := by
  have fields : (∀ a ∈ [5, 6, 7, 2].map (Access.read (some confIfc) · confSize), a.Allowed) ↔
      (confIfc : ℤ) + 7 < confSize := by
    simp only [map_cons, map_nil, forall_mem_cons, Access.Allowed, not_mem_nil, false_imp_iff, implies_true, and_true]
    omega
  rw [← fields]
  exact contained_access

theorem scanInterface_cases (round : s.scanInterface env confSize ifcI = some (v, s')) :
    s.getDescriptorPtr usbInterfaceDescriptor ifcI confSize = some (none, s') ∧ v = .stop none ∨
      ∃ confIfc s₁, s.getDescriptorPtr usbInterfaceDescriptor ifcI confSize = some (some confIfc, s₁) ∧
        v = answer env.drivers s₁.conf confIfc ∧ s' = s₁.adopt confSize confIfc := by
  rcases search : s.getDescriptorPtr usbInterfaceDescriptor ifcI confSize with _ | ⟨_ | confIfc, s₁⟩
  · rw [scanInterface, search] at round
    cases round
  · rw [scanInterface_missing search] at round
    cases round
    exact .inl ⟨rfl, rfl⟩
  · rw [scanInterface_found search] at round
    cases round
    exact .inr ⟨confIfc, s₁, rfl, rfl, rfl⟩

theorem scanInterface_describes (env : Env) (t : State) (confSize : ℤ) :
    Describes (scanInterface env confSize) (fun _ s => Unwritten t s) (fun _ _ s => Unwritten t s) Contained
      (InterfaceVerdict env.drivers t.conf confSize) where
  back := by
    intro ifcI s v s' round contained
    rcases scanInterface_cases round with ⟨search, -⟩ | ⟨confIfc, s₁, search, -, rfl⟩
    · exact (lookup_of_getDescriptorPtr search contained).2.1
    · exact (lookup_of_getDescriptorPtr search (contained_adopt.1 contained).1).2.1
  sound := by
    intro ifcI s v s' same round contained
    rcases scanInterface_cases round with ⟨search, rfl⟩ | ⟨confIfc, s₁, search, rfl, rfl⟩
    · obtain ⟨missing, -, accesses, rfl⟩ := lookup_of_getDescriptorPtr search contained
      rw [same.conf] at missing
      exact ⟨.inl ⟨rfl, missing⟩, same.access accesses⟩
    · obtain ⟨earlier, inside⟩ := contained_adopt.1 contained
      obtain ⟨found, -, accesses, rfl⟩ := lookup_of_getDescriptorPtr search earlier
      rw [same.conf] at found
      have codes := (same.access accesses).conf
      rw [codes]
      refine ⟨.inr ⟨confIfc, found, inside, rfl⟩, ?_⟩
      have after : Unwritten t ((s.access accesses).adopt confSize confIfc) := ⟨same.mem, same.requests⟩
      cases answer env.drivers t.conf confIfc <;> exact after
  complete := by
    intro ifcI s v same contained verdict
    rcases verdict with ⟨rfl, missing⟩ | ⟨confIfc, found, inside, rfl⟩
    · rw [← same.conf] at missing
      obtain ⟨accesses, search, contained'⟩ := getDescriptorPtr_of_lookup contained missing
      exact ⟨_, scanInterface_missing search, contained'⟩
    · rw [← same.conf] at found
      obtain ⟨accesses, search, contained'⟩ := getDescriptorPtr_of_lookup contained found
      have codes := (same.access accesses).conf
      rw [← codes]
      exact ⟨_, scanInterface_found search, contained_adopt.2 ⟨contained', inside⟩⟩

end State

namespace Env

variable (env : Env)

/-- The header of configuration `c`, if those before it have been received. -/
def header (c : ℕ) : Reply := env.reply (2 * c + 1)

def contents (c : ℕ) : Reply := env.reply (2 * c + 2)

def wTotalLength (c : ℕ) : ℕ := (word (env.header c).data 2).toNat

def bNumInterfaces (c : ℕ) : ℕ := ((env.contents c).data 4).toNat

/-- Both transfers for a configuration have taken place. -/
structure Arrives (c : ℕ) : Prop where
  header : (env.header c).ok = true
  headerType : (env.header c).data 1 = usbConfigurationDescriptor
  contents : (env.contents c).ok = true

/-- A configuration is received, long enough for its header and not too long for the buffer. -/
structure Receives (c : ℕ) : Prop extends env.Arrives c where
  nonempty : 4 < env.wTotalLength c
  fits : usbDevDescriptorSize + env.wTotalLength c ≤ buffSize

end Env

namespace State

variable {env : Env} {s s' s₁ : State} {c : ℕ}

theorem conf_store {size p : ℕ} {data : ℕ → BitVec 8} (less : p < size) :
    (s.store usbDevDescriptorSize size data).conf p = data p := by
  have inside : usbDevDescriptorSize ≤ usbDevDescriptorSize + p ∧
      usbDevDescriptorSize + p < usbDevDescriptorSize + size := by omega
  have offset : usbDevDescriptorSize + p - usbDevDescriptorSize = p := by omega
  have stored : (s.store usbDevDescriptorSize size data).conf p =
      if usbDevDescriptorSize ≤ usbDevDescriptorSize + p ∧ usbDevDescriptorSize + p < usbDevDescriptorSize + size then
        data (usbDevDescriptorSize + p - usbDevDescriptorSize) else s.mem (usbDevDescriptorSize + p) := rfl
  rw [stored, if_pos inside, offset]

/-- The state after both transfers for a configuration. -/
def loaded (env : Env) (s : State) (c : ℕ) : State :=
  let requests := [
    Request.getDescriptor usbConfigurationDescriptor c usbDevConfigurationSize,
    Request.getDescriptor usbConfigurationDescriptor c (env.wTotalLength c)]
  { s with requests := s.requests ++ requests }.store usbDevDescriptorSize (env.wTotalLength c) (env.contents c).data

section

variable (calls : s.requests.length = 2 * c + 1)
include calls

theorem requests_loaded : (s.loaded env c).requests.length = 2 * (c + 1) + 1 := by
  have requests : (s.loaded env c).requests.length = s.requests.length + 2 := length_append
  omega

theorem loadConfiguration_arrived (arrives : env.Arrives c) :
    s.loadConfiguration env c = ((env.wTotalLength c : ℤ), s.loaded env c) := by
  have header : env.reply (2 * c + 1) = env.header c := rfl
  have contents : env.reply (2 * c + 1 + 1) = env.contents c := rfl
  simp [loadConfiguration, controlTransfer, loadDescriptor, calls, header, arrives.header, arrives.headerType,
    contents, arrives.contents, Reply.count, loaded, Env.wTotalLength]

theorem loadConfiguration_lost (lost : ¬env.Arrives c) : (s.loadConfiguration env c).1 = errXfer := by
  have header : env.reply (2 * c + 1) = env.header c := rfl
  have contents : env.reply (2 * c + 1 + 1) = env.contents c := rfl
  simp only [loadConfiguration, controlTransfer, loadDescriptor, calls, header, length_append,
    length_singleton, contents]
  by_cases refused : (env.header c).ok = false
  · rw [if_pos refused]
  by_cases other : (env.header c).data 1 ≠ usbConfigurationDescriptor
  · rw [if_neg refused, if_pos other]
  have failed : (env.contents c).ok = false := by
    by_contra arrived
    exact lost ⟨Bool.eq_true_of_not_eq_false refused, not_not.1 other, Bool.eq_true_of_not_eq_false arrived⟩
  rw [if_neg refused, if_neg other, failed]
  rfl

end

theorem loadConfiguration_log (env : Env) (s : State) (c : ℕ) :
    ∃ accesses, (s.loadConfiguration env c).2.log = s.log ++ accesses ∧
      ∀ a ∈ accesses, ∃ offset size, a = .write offset size := by
  have stored (size : ℕ) : ∀ a ∈ [Access.write usbDevDescriptorSize size], ∃ offset size, a = .write offset size :=
    forall_mem_singleton.2 ⟨_, _, rfl⟩
  unfold loadConfiguration
  dsimp only
  split
  · exact ⟨[], (append_nil _).symm, forall_mem_nil _⟩
  split
  · exact ⟨[], (append_nil _).symm, forall_mem_nil _⟩
  split
  all_goals exact ⟨_, rfl, stored _⟩

theorem contained_loaded :
    (s.loaded env c).Contained ↔ s.Contained ∧ usbDevDescriptorSize + env.wTotalLength c ≤ buffSize := by
  have stored : (s.loaded env c).Contained ↔
      s.Contained ∧ ∀ a ∈ [Access.write usbDevDescriptorSize (env.wTotalLength c)], a.Allowed :=
    contained_access
  rw [stored, forall_mem_singleton]
  rfl

theorem contained_reads_singleton {confSize : ℤ} {ptr field : ℕ} :
    (s.reads confSize (some ptr) [field]).Contained ↔ s.Contained ∧ ((ptr + field : ℕ) : ℤ) < confSize := by
  have read : (s.reads confSize (some ptr) [field]).Contained ↔
      s.Contained ∧ ∀ a ∈ [Access.read (some ptr) field confSize], a.Allowed :=
    contained_access
  rw [read, forall_mem_singleton]
  rfl

end State

/-- What the loop over the interfaces means for the configuration. -/
def settle (confSize : ℤ) (found : Option (Option (ℕ × Driver))) : Verdict Selection :=
  match found.join with
  | some (confIfc, udd) => .stop ⟨confSize, confIfc, udd⟩
  | none => .next

/-- A round of the loop over the configurations that stays inside. -/
def ConfigurationVerdict (env : Env) (c : ℕ) (v : Verdict Selection) : Prop :=
  env.Receives c ∧ ∃ found,
    Outcome (InterfaceVerdict env.drivers (env.contents c).data (env.wTotalLength c)) 0 (env.bNumInterfaces c) found ∧
    v = settle (env.wTotalLength c) found

/-- The configuration in the buffer is the one that the device has sent. -/
def Holds (env : Env) (c : ℕ) (selection : Selection) (s : State) : Prop :=
  ∀ p : ℕ, (p : ℤ) < selection.confSize → s.conf p = (env.contents c).data p

variable {found : Option (Option (ℕ × Driver))}

namespace State

variable {env : Env} {s s' s₁ : State} {c : ℕ} {confSize : ℤ}

theorem scanConfiguration_eq (load : s.loadConfiguration env c = (confSize, s₁)) :
    s.scanConfiguration env c =
      (loop (scanInterface env confSize) (s₁.conf 4).toNat 0 (s₁.reads confSize (some 0) [4])).map
        fun result => (settle confSize result.1, result.2) := by
  simp only [scanConfiguration, load, bind_eq_bind]
  have same : (s₁.reads confSize (some 0) [4]).conf 4 = s₁.conf 4 := rfl
  rw [same]
  rcases loop (scanInterface env confSize) (s₁.conf 4).toNat 0 (s₁.reads confSize (some 0) [4]) with _ | ⟨found, s₂⟩
  · rfl
  · simp only [bind_some, map_some, settle]
    cases found.join <;> rfl

theorem unwritten_of_interfaces {left : ℕ}
    (ended : loop (scanInterface env confSize) left 0 s = some (found, s')) (contained : s'.Contained) :
    Unwritten s s' := by
  obtain ⟨outcome, finished⟩ := loop_sound (scanInterface_describes env s confSize) Unwritten.rfl ended contained
  cases found with
  | none => exact finished rfl
  | some result =>
    obtain ⟨-, -, -, -, -, after⟩ := outcome
    exact after result rfl

theorem scanConfiguration_describes (env : Env) :
    Describes (scanConfiguration env) (fun c s => s.requests.length = 2 * c + 1) (Holds env) Contained
      (ConfigurationVerdict env) where
  back := by
    intro c s v s' round contained
    rcases load : s.loadConfiguration env c with ⟨confSize, s₁⟩
    rw [scanConfiguration_eq load, map_eq_some_iff] at round
    obtain ⟨⟨found, _⟩, ended, ⟨⟩⟩ := round
    have start := loop_back (scanInterface_describes env s₁ confSize) ended contained
    obtain ⟨accesses, log, -⟩ := loadConfiguration_log env s c
    rw [load] at log
    have contained₁ : ∀ a ∈ s₁.log, a.Allowed := (contained_reads_singleton.1 start).1
    rw [log] at contained₁
    exact (forall_mem_append.1 contained₁).1
  sound := by
    intro c s v s' calls round contained
    rcases load : s.loadConfiguration env c with ⟨confSize, s₁⟩
    rw [scanConfiguration_eq load, map_eq_some_iff] at round
    obtain ⟨⟨found, s₂⟩, ended, ⟨⟩⟩ := round
    have start := loop_back (scanInterface_describes env s₁ confSize) ended contained
    obtain ⟨contained₁, header⟩ := contained_reads_singleton.1 start
    have arrives : env.Arrives c := by
      by_contra lost
      have failed := loadConfiguration_lost calls lost
      rw [load] at failed
      rw [show confSize = errXfer from failed] at header
      exact absurd header (by decide)
    rw [loadConfiguration_arrived calls arrives] at load
    obtain ⟨rfl, rfl⟩ := Prod.mk.inj load
    have receives : env.Receives c := ⟨arrives, by simpa using header, (contained_loaded.1 contained₁).2⟩
    have same (p : ℕ) (less : (p : ℤ) < env.wTotalLength c) :
        (s.loaded env c).conf p = (env.contents c).data p := conf_store (by omega)
    have count : ((s.loaded env c).conf 4).toNat = env.bNumInterfaces c := by
      rw [same 4 header]
      rfl
    have unwritten := unwritten_of_interfaces ended contained
    have ran := loop_sound (scanInterface_describes env _ _) Unwritten.rfl ended contained
    rw [count, Nat.zero_add] at ran
    refine ⟨⟨receives, found, ran.1.imp fun round => round.1.congr same, rfl⟩, ?_⟩
    rw [settle]
    cases found.join with
    | none =>
      have next : s₂.requests.length = 2 * (c + 1) + 1 := by
        rw [unwritten.requests]
        exact requests_loaded calls
      exact next
    | some chosen =>
      intro p less
      rw [unwritten.conf]
      exact same p less
  complete := by
    intro c s v calls contained verdict
    obtain ⟨receives, found, outcome, rfl⟩ := verdict
    have same (p : ℕ) (less : (p : ℤ) < env.wTotalLength c) :
        (env.contents c).data p = (s.loaded env c).conf p := (conf_store (by omega)).symm
    have count : ((s.loaded env c).conf 4).toNat = env.bNumInterfaces c := by
      rw [← same 4 (by exact_mod_cast receives.nonempty)]
      rfl
    have contained₁ := contained_loaded.2 ⟨contained, receives.fits⟩
    have start : ((s.loaded env c).reads (env.wTotalLength c) (some 0) [4]).Contained :=
      contained_reads_singleton.2 ⟨contained₁, by exact_mod_cast receives.nonempty⟩
    rw [← Nat.zero_add (env.bNumInterfaces c)] at outcome
    obtain ⟨s', ended, contained'⟩ := loop_complete (scanInterface_describes env _ _) Unwritten.rfl start
      (outcome.imp fun round => round.congr same)
    refine ⟨s', ?_, contained'⟩
    rw [scanConfiguration_eq (loadConfiguration_arrived calls receives.toArrives), count, ended]
    rfl

end State

/-- A round of the loop over the endpoints that stays inside. -/
def EndpointVerdict (bytes : ℕ → BitVec 8) (confSize : ℤ) (epI : ℕ) (_ : Verdict Empty) : Prop :=
  epI + 1 < maxUsbPipes ∧
    ∃ ptr : ℕ, Lookup bytes confSize usbEndpointDescriptor epI (some ptr) ∧ (ptr : ℤ) + 6 < confSize

theorem EndpointVerdict.congr {confSize : ℤ} {epI : ℕ} {v : Verdict Empty}
    (same : ∀ p : ℕ, (p : ℤ) < confSize → bytes p = bytes' p) (round : EndpointVerdict bytes confSize epI v) :
    EndpointVerdict bytes' confSize epI v := by
  obtain ⟨few, ptr, found, inside⟩ := round
  exact ⟨few, ptr, found.congr same, inside⟩

namespace State

variable {env : Env} {s s' s₁ : State} {confSize : ℤ} {epI : ℕ} {ptr : Option ℕ}

def fillPipe (env : Env) (s : State) (confSize : ℤ) (epI : ℕ) (ptr : Option ℕ) : State :=
  let udev := { s.udev with pipe := Function.update s.udev.pipe (epI + 1) (pipeFor (s.bytesAt env ptr)) }
  { s.reads confSize ptr [2, 3, 4, 5, 6] with udev }.access [.fill (epI + 1) ptr]

theorem recordEndpoint_eq (search : s.getDescriptorPtr usbEndpointDescriptor epI confSize = some (ptr, s₁)) :
    s.recordEndpoint env confSize epI = some (.next, s₁.fillPipe env confSize epI ptr) := by
  rw [recordEndpoint, search]
  cases ptr <;> rfl

theorem contained_fillPipe : (s.fillPipe env confSize epI ptr).Contained ↔
    s.Contained ∧ epI + 1 < maxUsbPipes ∧ ∃ p : ℕ, ptr = some p ∧ (p : ℤ) + 6 < confSize := by
  have accesses : (s.fillPipe env confSize epI ptr).Contained ↔
      (s.Contained ∧ ∀ a ∈ [2, 3, 4, 5, 6].map (Access.read ptr · confSize), a.Allowed) ∧
        ∀ a ∈ [Access.fill (epI + 1) ptr], a.Allowed :=
    contained_access.trans (and_congr_left' contained_access)
  rw [accesses]
  cases ptr with
  | none => simp [Access.Allowed]
  | some p =>
    simp only [map_cons, map_nil, forall_mem_cons, Access.Allowed, not_mem_nil, false_imp_iff,
      implies_true, and_true, some.injEq, exists_eq_left']
    constructor
    · rintro ⟨⟨contained, inside⟩, few⟩
      exact ⟨contained, few, by omega⟩
    · rintro ⟨contained, few, inside⟩
      exact ⟨⟨contained, by omega⟩, few⟩

theorem recordEndpoint_cases {v : Verdict Empty} (round : s.recordEndpoint env confSize epI = some (v, s')) :
    ∃ ptr s₁, s.getDescriptorPtr usbEndpointDescriptor epI confSize = some (ptr, s₁) ∧ v = .next ∧
      s' = s₁.fillPipe env confSize epI ptr := by
  rcases search : s.getDescriptorPtr usbEndpointDescriptor epI confSize with _ | ⟨ptr, s₁⟩
  · rw [recordEndpoint, search] at round
    cases round
  · rw [recordEndpoint_eq search] at round
    cases round
    exact ⟨ptr, s₁, rfl, rfl, rfl⟩

theorem recordEndpoint_describes (env : Env) (t : State) (confSize : ℤ) :
    Describes (recordEndpoint env confSize) (fun _ s => Unwritten t s) (fun _ _ _ => True) Contained
      (EndpointVerdict t.conf confSize) where
  back := by
    intro epI s v s' round contained
    obtain ⟨ptr, s₁, search, -, rfl⟩ := recordEndpoint_cases round
    exact (lookup_of_getDescriptorPtr search (contained_fillPipe.1 contained).1).2.1
  sound := by
    intro epI s v s' same round contained
    obtain ⟨ptr, s₁, search, rfl, rfl⟩ := recordEndpoint_cases round
    obtain ⟨earlier, few, p, rfl, inside⟩ := contained_fillPipe.1 contained
    obtain ⟨found, -, accesses, rfl⟩ := lookup_of_getDescriptorPtr search earlier
    rw [same.conf] at found
    exact ⟨⟨few, p, found, inside⟩, ⟨same.mem, same.requests⟩⟩
  complete := by
    intro epI s v same contained verdict
    obtain ⟨few, p, found, inside⟩ := verdict
    rw [← same.conf] at found
    obtain ⟨accesses, search, contained'⟩ := getDescriptorPtr_of_lookup contained found
    cases v with
    | next => exact ⟨_, recordEndpoint_eq search, contained_fillPipe.2 ⟨contained', few, p, rfl, inside⟩⟩
    | stop result => exact result.elim

end State

/-- All endpoints of an interface have a pipe and a descriptor. -/
def EndpointsFit (bytes : ℕ → BitVec 8) (confSize : ℤ) (confIfc : ℕ) : Prop :=
  ∀ epI < (bytes (confIfc + 4)).toNat, epI + 1 < maxUsbPipes ∧
    ∃ ptr : ℕ, Lookup bytes confSize usbEndpointDescriptor epI (some ptr) ∧ (ptr : ℤ) + 6 < confSize

theorem EndpointsFit.congr {confSize : ℤ} {confIfc : ℕ}
    (same : ∀ p : ℕ, (p : ℤ) < confSize → bytes p = bytes' p) (inside : (confIfc : ℤ) + 7 < confSize)
    (fit : EndpointsFit bytes confSize confIfc) : EndpointsFit bytes' confSize confIfc := by
  intro epI less
  rw [← same (confIfc + 4) (by omega)] at less
  exact EndpointVerdict.congr (v := .next) same (fit epI less)

namespace State

variable {env : Env} {s s' : State} {selection : Selection}

/-- The driver is noted, and the number of endpoints is read. -/
def chosen (s : State) (selection : Selection) : State :=
  { s with udev := { s.udev with udd := some selection.udd } }.reads selection.confSize (some selection.confIfc) [4]

theorem unwritten_chosen : Unwritten s (s.chosen selection) := ⟨rfl, rfl⟩

theorem contained_chosen : (s.chosen selection).Contained ↔
    s.Contained ∧ ((selection.confIfc + 4 : ℕ) : ℤ) < selection.confSize := contained_reads_singleton

theorem recordEndpoints_eq (env : Env) (s : State) (selection : Selection) :
    s.recordEndpoints env selection =
      (loop (recordEndpoint env selection.confSize) (s.conf (selection.confIfc + 4)).toNat 0 (s.chosen selection)).map
        fun result =>
          { result.2 with
            udev := { result.2.udev with pipeCount := (s.conf (selection.confIfc + 4)).toNat + 1 } } := by
  simp only [map_eq_bind]
  rfl

theorem endpointsFit_of_recordEndpoints (ended : s.recordEndpoints env selection = some s') (contained : s'.Contained) :
    s.Contained ∧ EndpointsFit s.conf selection.confSize selection.confIfc := by
  rw [recordEndpoints_eq, map_eq_some_iff] at ended
  obtain ⟨⟨r, s₁⟩, ended, rfl⟩ := ended
  have earlier := loop_back (recordEndpoint_describes env s _) ended contained
  refine ⟨(contained_chosen.1 earlier).1, ?_⟩
  obtain ⟨outcome, -⟩ := loop_sound (recordEndpoint_describes env s _) unwritten_chosen ended contained
  rw [Nat.zero_add] at outcome
  cases r with
  | none => exact fun epI less => (outcome epI (Nat.zero_le epI) less).1
  | some result => exact result.elim

theorem recordEndpoints_of_endpointsFit (env : Env) (contained : s.Contained)
    (inside : (selection.confIfc : ℤ) + 7 < selection.confSize)
    (fit : EndpointsFit s.conf selection.confSize selection.confIfc) :
    ∃ s', s.recordEndpoints env selection = some s' ∧ s'.Contained := by
  have start := contained_chosen.2 ⟨contained, show ((selection.confIfc + 4 : ℕ) : ℤ) < selection.confSize by omega⟩
  have all : ∀ epI, 0 ≤ epI → epI < 0 + (s.conf (selection.confIfc + 4)).toNat →
      EndpointVerdict s.conf selection.confSize epI .next := fun epI _ less => fit epI (by omega)
  obtain ⟨s₁, ended, contained'⟩ := loop_all (recordEndpoint_describes env s _) unwritten_chosen start all
  rw [recordEndpoints_eq, ended]
  exact ⟨_, rfl, contained'⟩

theorem contained_finish {address : BitVec 32} : (s.finish env address selection).Contained ↔
    s.Contained ∧ 5 < selection.confSize ∧ (selection.confIfc : ℤ) + 3 < selection.confSize := by
  have accesses : (s.finish env address selection).Contained ↔
      (s.Contained ∧ ∀ a ∈ [Access.read (some 0) 5 selection.confSize], a.Allowed) ∧
        ∀ a ∈ [3, 2].map (Access.read (some selection.confIfc) · selection.confSize), a.Allowed :=
    contained_access.trans (and_congr_left' contained_access)
  rw [accesses]
  simp only [map_cons, map_nil, forall_mem_cons, Access.Allowed, not_mem_nil, false_imp_iff, implies_true, and_true]
  constructor
  · rintro ⟨⟨contained, header⟩, inside⟩
    exact ⟨contained, by omega, by omega⟩
  · rintro ⟨contained, header, inside⟩
    exact ⟨⟨contained, by omega⟩, by omega⟩

end State

/-- The call returns, has written only inside of the buffer and of the array of pipes, and has read descriptors only
inside of the configuration that was received, never through `NULL`. -/
def Safe (env : Env) (address : BitVec 32) (mem : ℕ → BitVec 8) (udev : UsbDev) : Prop :=
  ∃ rc s, usbConfigureDevice env address mem udev = some (rc, s) ∧ s.Contained

instance (env : Env) (address : BitVec 32) (mem : ℕ → BitVec 8) (udev : UsbDev) :
    Decidable (Safe env address mem udev) :=
  match run : usbConfigureDevice env address mem udev with
  | none => .isFalse fun ⟨_, _, returned, _⟩ => by simp [run] at returned
  | some (rc, s) => decidable_of_iff s.Contained (by simp [Safe, run])

namespace Env

variable (env : Env)

/-- How many configurations the device has. If its descriptor has not arrived, the byte is an old one. -/
def configurationsNum (mem : ℕ → BitVec 8) : ℕ :=
  if 17 < (env.reply 0).count usbDevDescriptorSize then ((env.reply 0).data 17).toNat else (mem 17).toNat

/-- The search for interface `i` of a configuration stays inside and ends with this result. -/
def FindsInterface (c i : ℕ) (r : Option ℕ) : Prop :=
  Lookup (env.contents c).data (env.wTotalLength c) usbInterfaceDescriptor i r

def HasInterface (c i confIfc : ℕ) : Prop := env.FindsInterface c i (some confIfc) ∧ confIfc + 7 < env.wTotalLength c

/-- There is no driver for interface `i`. -/
def Rejects (c i : ℕ) : Prop :=
  ∃ confIfc, env.HasInterface c i confIfc ∧
    usbLookupDriver env.drivers (interfaceAt (env.contents c).data confIfc) = none

/-- There is no driver for the interfaces of a configuration, as far as they are described. -/
def Declines (c : ℕ) : Prop :=
  env.Receives c ∧ ((∀ i < env.bNumInterfaces c, env.Rejects c i) ∨
    ∃ i < env.bNumInterfaces c, (∀ j < i, env.Rejects c j) ∧ env.FindsInterface c i none)

/-- The first interface with a driver is described at `confIfc`. -/
def Chooses (c confIfc : ℕ) (udd : Driver) : Prop :=
  env.Receives c ∧ ∃ i < env.bNumInterfaces c, (∀ j < i, env.Rejects c j) ∧ env.HasInterface c i confIfc ∧
    usbLookupDriver env.drivers (interfaceAt (env.contents c).data confIfc) = some udd

/-- A device without a driver declines with all configurations. Otherwise those in front of the chosen one decline,
and the endpoints of the chosen interface fit. -/
def Tame (mem : ℕ → BitVec 8) : Prop :=
  (∀ c < env.configurationsNum mem, env.Declines c) ∨
    ∃ c < env.configurationsNum mem, (∀ d < c, env.Declines d) ∧ ∃ confIfc udd, env.Chooses c confIfc udd ∧
      EndpointsFit (env.contents c).data (env.wTotalLength c) confIfc

end Env

section

variable {env : Env} {c i confIfc : ℕ} {udd : Driver}

theorem Env.Chooses.inside (chooses : env.Chooses c confIfc udd) : (confIfc : ℤ) + 7 < env.wTotalLength c := by
  obtain ⟨-, i, -, -, described, -⟩ := chooses
  exact_mod_cast described.2

theorem interfaceVerdict_next_iff :
    InterfaceVerdict env.drivers (env.contents c).data (env.wTotalLength c) i .next ↔ env.Rejects c i := by
  constructor
  · rintro (⟨impossible, -⟩ | ⟨confIfc, found, inside, asked⟩)
    · cases impossible
    · exact ⟨confIfc, ⟨found, by omega⟩, next_eq_answer_iff.1 asked⟩
  · rintro ⟨confIfc, ⟨found, inside⟩, none⟩
    exact .inr ⟨confIfc, found, by omega, next_eq_answer_iff.2 none⟩

theorem interfaceVerdict_missing_iff :
    InterfaceVerdict env.drivers (env.contents c).data (env.wTotalLength c) i (.stop none) ↔
      env.FindsInterface c i none := by
  constructor
  · rintro (⟨-, missing⟩ | ⟨confIfc, found, inside, asked⟩)
    · exact missing
    · obtain ⟨udd, -, ⟨⟩⟩ := stop_eq_answer_iff.1 asked
  · exact fun missing => .inl ⟨rfl, missing⟩

theorem interfaceVerdict_chosen_iff :
    InterfaceVerdict env.drivers (env.contents c).data (env.wTotalLength c) i (.stop (some (confIfc, udd))) ↔
      env.HasInterface c i confIfc ∧
        usbLookupDriver env.drivers (interfaceAt (env.contents c).data confIfc) = some udd := by
  constructor
  · rintro (⟨impossible, -⟩ | ⟨confIfc, found, inside, asked⟩)
    · cases impossible
    · obtain ⟨udd, driver, ⟨⟩⟩ := stop_eq_answer_iff.1 asked
      exact ⟨⟨found, by omega⟩, driver⟩
  · rintro ⟨⟨found, inside⟩, driver⟩
    exact .inr ⟨confIfc, found, by omega, stop_eq_answer_iff.2 ⟨udd, driver, rfl⟩⟩

theorem configurationVerdict_next_iff : ConfigurationVerdict env c .next ↔ env.Declines c := by
  apply and_congr_right
  intro receives
  constructor
  · rintro ⟨found, outcome, settled⟩
    rcases found with _ | _ | ⟨confIfc, udd⟩
    · exact .inl fun i less => interfaceVerdict_next_iff.1 (outcome i (Nat.zero_le i) less)
    · obtain ⟨i, -, less, earlier, missing⟩ := outcome
      exact .inr ⟨i, less, fun j before => interfaceVerdict_next_iff.1 (earlier j (Nat.zero_le j) before),
        interfaceVerdict_missing_iff.1 missing⟩
    · cases settled
  · rintro (all | ⟨i, less, earlier, missing⟩)
    · exact ⟨none, fun i _ less => interfaceVerdict_next_iff.2 (all i less), rfl⟩
    · exact ⟨some none, ⟨i, Nat.zero_le i, less, fun j _ before => interfaceVerdict_next_iff.2 (earlier j before),
        interfaceVerdict_missing_iff.2 missing⟩, rfl⟩

theorem configurationVerdict_stop_iff {selection : Selection} :
    ConfigurationVerdict env c (.stop selection) ↔
      selection.confSize = env.wTotalLength c ∧ env.Chooses c selection.confIfc selection.udd := by
  constructor
  · rintro ⟨receives, found, outcome, settled⟩
    rcases found with _ | _ | ⟨confIfc, udd⟩
    · cases settled
    · cases settled
    · cases settled
      obtain ⟨i, -, less, earlier, chosen⟩ := outcome
      obtain ⟨described, driver⟩ := interfaceVerdict_chosen_iff.1 chosen
      exact ⟨rfl, receives, i, less, fun j before => interfaceVerdict_next_iff.1 (earlier j (Nat.zero_le j) before),
        described, driver⟩
  · rintro ⟨size, receives, i, less, earlier, described, driver⟩
    refine ⟨receives, some (some (selection.confIfc, selection.udd)), ⟨i, Nat.zero_le i, less, fun j _ before =>
      interfaceVerdict_next_iff.2 (earlier j before), interfaceVerdict_chosen_iff.2 ⟨described, driver⟩⟩, ?_⟩
    rw [← size]
    rfl

end

section

variable {env : Env} {mem : ℕ → BitVec 8} {udev : UsbDev} {address : BitVec 32}

theorem configurationsNum_readDeviceDescriptor :
    (readDeviceDescriptor env mem udev).udev.configurationsNum = env.configurationsNum mem := by
  have read : (readDeviceDescriptor env mem udev).udev.configurationsNum =
      (if 0 ≤ 17 ∧ 17 < 0 + (env.reply 0).count usbDevDescriptorSize then (env.reply 0).data (17 - 0)
        else mem 17).toNat := rfl
  rw [read, Env.configurationsNum]
  simp [apply_ite BitVec.toNat]

theorem contained_readDeviceDescriptor : (readDeviceDescriptor env mem udev).Contained := by
  have count : (env.reply 0).count usbDevDescriptorSize ≤ usbDevDescriptorSize := by
    rw [Reply.count]
    split
    · exact le_rfl
    · exact min_le_right _ _
  have access : (readDeviceDescriptor env mem udev).log =
      [.write 0 ((env.reply 0).count usbDevDescriptorSize)] := rfl
  rw [State.Contained, access, forall_mem_singleton]
  have fits : usbDevDescriptorSize ≤ buffSize := by decide
  exact (Nat.zero_add _).le.trans (count.trans fits)

theorem usbConfigureDevice_cases {rc : ℤ} {s' : State}
    (returned : usbConfigureDevice env address mem udev = some (rc, s')) :
    selectDriver env mem udev = some (none, s') ∧ rc = errNoDriver ∨
      ∃ selection s s₁, selectDriver env mem udev = some (some selection, s) ∧
        s.recordEndpoints env selection = some s₁ ∧ rc = 0 ∧ s' = s₁.finish env address selection := by
  rcases select : selectDriver env mem udev with _ | ⟨_ | selection, s⟩
  · rw [usbConfigureDevice, select] at returned
    cases returned
  · rw [usbConfigureDevice, select] at returned
    cases returned
    exact .inl ⟨rfl, rfl⟩
  · rw [usbConfigureDevice, select] at returned
    simp only [bind_eq_bind, bind_some] at returned
    rcases record : s.recordEndpoints env selection with _ | s₁
    · rw [record] at returned
      cases returned
    · rw [record] at returned
      cases returned
      exact .inr ⟨selection, s, s₁, rfl, record, rfl, rfl⟩

theorem tame_of_safe (safe : Safe env address mem udev) : env.Tame mem := by
  obtain ⟨rc, s', returned, contained⟩ := safe
  have start : (readDeviceDescriptor env mem udev).requests.length = 2 * 0 + 1 := rfl
  rcases usbConfigureDevice_cases returned with ⟨select, -⟩ | ⟨selection, s, s₁, select, record, -, rfl⟩
  · rw [selectDriver, configurationsNum_readDeviceDescriptor] at select
    obtain ⟨all, -⟩ := loop_sound (State.scanConfiguration_describes env) start select contained
    refine .inl fun c less => configurationVerdict_next_iff.1 ?_
    exact (all c (Nat.zero_le c) (by omega)).1
  · obtain ⟨contained₁, -⟩ := State.contained_finish.1 contained
    obtain ⟨contained₀, fit⟩ := State.endpointsFit_of_recordEndpoints record contained₁
    rw [selectDriver, configurationsNum_readDeviceDescriptor] at select
    obtain ⟨⟨c, -, less, earlier, stop, holds⟩, -⟩ :=
      loop_sound (State.scanConfiguration_describes env) start select contained₀
    obtain ⟨size, chooses⟩ := configurationVerdict_stop_iff.1 stop
    have same := holds selection rfl
    rw [Holds, size] at same
    rw [size] at fit
    exact .inr ⟨c, by omega, fun d before => configurationVerdict_next_iff.1 (earlier d (Nat.zero_le d) before).1,
      selection.confIfc, selection.udd, chooses, fit.congr same chooses.inside⟩

/-- With a driver found, the rest of the call is safe if the endpoints fit. -/
theorem safe_of_selected {selection : Selection} {s : State}
    (select : selectDriver env mem udev = some (some selection, s)) (contained : s.Contained)
    (inside : (selection.confIfc : ℤ) + 7 < selection.confSize)
    (fit : EndpointsFit s.conf selection.confSize selection.confIfc) : Safe env address mem udev := by
  obtain ⟨s₁, record, contained₁⟩ := State.recordEndpoints_of_endpointsFit env contained inside fit
  refine ⟨0, s₁.finish env address selection, ?_, State.contained_finish.2 ⟨contained₁, by omega, by omega⟩⟩
  rw [usbConfigureDevice, select]
  simp [record]

theorem safe_of_tame (tame : env.Tame mem) : Safe env address mem udev := by
  have start : (readDeviceDescriptor env mem udev).requests.length = 2 * 0 + 1 := rfl
  rcases tame with all | ⟨c, less, earlier, confIfc, udd, chooses, fit⟩
  · have selected : ∃ s, loop (State.scanConfiguration env) (env.configurationsNum mem) 0
        (readDeviceDescriptor env mem udev) = some (none, s) ∧ s.Contained :=
      loop_all (State.scanConfiguration_describes env) start contained_readDeviceDescriptor fun c _ less =>
        configurationVerdict_next_iff.2 (all c (by omega))
    obtain ⟨s, select, contained⟩ := selected
    refine ⟨errNoDriver, s, ?_, contained⟩
    rw [usbConfigureDevice, selectDriver, configurationsNum_readDeviceDescriptor, select]
    rfl
  · have selected : ∃ s, loop (State.scanConfiguration env) (env.configurationsNum mem) 0
        (readDeviceDescriptor env mem udev) = some (some ⟨env.wTotalLength c, confIfc, udd⟩, s) ∧ s.Contained ∧
          Holds env c ⟨env.wTotalLength c, confIfc, udd⟩ s :=
      loop_until (State.scanConfiguration_describes env) start contained_readDeviceDescriptor (Nat.zero_le c) (by omega)
        (fun d _ before => configurationVerdict_next_iff.2 (earlier d before))
        (configurationVerdict_stop_iff.2 ⟨rfl, chooses⟩)
    obtain ⟨s, select, contained, holds⟩ := selected
    have fitted := fit.congr (fun p inside => (holds p inside).symm) chooses.inside
    rw [← configurationsNum_readDeviceDescriptor] at select
    exact safe_of_selected select contained chooses.inside fitted

/-- The call is safe exactly for the devices that are tame. -/
theorem safe_iff_tame : Safe env address mem udev ↔ env.Tame mem := ⟨tame_of_safe, safe_of_tame⟩

end

namespace State

/-- The interfaces that the loop looks at, up to the first one without a descriptor. -/
def interfaces (s : State) (confSize : ℤ) : ℕ → ℕ → List Interface
  | 0, _ => []
  | left + 1, ifcI =>
    match s.getDescriptorPtr usbInterfaceDescriptor ifcI confSize with
    | some (some confIfc, _) => interfaceAt s.conf confIfc :: s.interfaces confSize left (ifcI + 1)
    | _ => []

/-- The configurations from one on, each loaded over the one before. -/
def configurations (env : Env) : ℕ → ℕ → State → List (List Interface)
  | 0, _, _ => []
  | left + 1, c, s =>
    let (confSize, s) := s.loadConfiguration env c
    s.interfaces confSize (s.conf 4).toNat 0 :: configurations env left (c + 1) s

variable {env : Env} {s s' t : State} {confSize : ℤ} {left c : ℕ}

/-- A search does not depend on the accesses before it. -/
theorem getDescriptorPtr_congr {descriptorType : BitVec 8} {index : ℕ} {r : Option ℕ} (same : Unwritten t s)
    (search : s.getDescriptorPtr descriptorType index confSize = some (r, s')) :
    (∃ t', t.getDescriptorPtr descriptorType index confSize = some (r, t')) ∧ Unwritten t s' := by
  obtain ⟨k, accesses, rfl, ends, inside, -⟩ := getDescriptorPtr_ends search
  rw [same.conf] at ends inside
  obtain ⟨accesses', ran, -⟩ := getDescriptorPtr_of_ends ends inside
  exact ⟨⟨_, ran⟩, same.access accesses⟩

theorem loadConfiguration_congr (env : Env) (c : ℕ) (same : Unwritten t s) :
    (t.loadConfiguration env c).1 = (s.loadConfiguration env c).1 ∧
      Unwritten (t.loadConfiguration env c).2 (s.loadConfiguration env c).2 := by
  rcases t with ⟨_, udev, _, log, started⟩
  rcases s with ⟨mem, udev', requests, log', started'⟩
  obtain ⟨rfl, rfl⟩ := same
  have failed : errXfer ≠ 0 := by decide
  unfold loadConfiguration
  dsimp only [controlTransfer, loadDescriptor]
  split
  · exact ⟨rfl, rfl, rfl⟩
  split
  · exact ⟨rfl, rfl, rfl⟩
  by_cases arrived : (env.reply (requests ++
    [Request.getDescriptor usbConfigurationDescriptor c usbDevConfigurationSize]).length).ok
  · simp only [arrived, if_true]
    exact ⟨trivial, rfl, rfl⟩
  · simp only [arrived, Bool.false_eq_true, if_false, failed]
    exact ⟨trivial, rfl, rfl⟩

/-- A round finds no descriptor where the list of interfaces ends, and asks for a driver of its head otherwise. -/
theorem scanInterface_driver {i : ℕ} (same : Unwritten t s)
    (round : s.scanInterface env confSize i = some (v, s')) :
    Unwritten t s' ∧ (v = .stop none ∧ t.interfaces confSize (left + 1) i = [] ∨ ∃ confIfc,
      v = answer env.drivers t.conf confIfc ∧ t.interfaces confSize (left + 1) i =
        interfaceAt t.conf confIfc :: t.interfaces confSize left (i + 1)) := by
  rcases scanInterface_cases round with ⟨search, rfl⟩ | ⟨confIfc, s₁, search, rfl, rfl⟩
  · obtain ⟨⟨t', ran⟩, same₁⟩ := getDescriptorPtr_congr same search
    exact ⟨same₁, .inl ⟨rfl, by rw [interfaces, ran]⟩⟩
  · obtain ⟨⟨t', ran⟩, same₁⟩ := getDescriptorPtr_congr same search
    exact ⟨⟨same₁.mem, same₁.requests⟩, .inr ⟨confIfc, by rw [same₁.conf], by rw [interfaces, ran]⟩⟩

/-- The loop over the interfaces finds the driver of the first one that has one. -/
theorem interfaces_driver {i : ℕ} (same : Unwritten t s)
    (ended : loop (scanInterface env confSize) left i s = some (found, s')) :
    found.join.map Prod.snd = (t.interfaces confSize left i).findSome? (usbLookupDriver env.drivers) ∧
      Unwritten t s' := by
  induction left generalizing i s with
  | zero =>
    cases ended
    exact ⟨rfl, same⟩
  | succ left ih =>
    rcases loop_cases ended with ⟨s₁, first, rest⟩ | ⟨result, first, rfl⟩
    · obtain ⟨same₁, ⟨stop, -⟩ | ⟨confIfc, goesOn, list⟩⟩ := scanInterface_driver same first
      · cases stop
      · rw [list, findSome?_cons, next_eq_answer_iff.1 goesOn]
        exact ih same₁ rest
    · obtain ⟨same₁, ⟨stop, list⟩ | ⟨confIfc, stops, list⟩⟩ := scanInterface_driver same first
      · cases stop
        rw [list]
        exact ⟨rfl, same₁⟩
      · obtain ⟨udd, lookup, rfl⟩ := stop_eq_answer_iff.1 stops
        rw [list, findSome?_cons, lookup]
        exact ⟨rfl, same₁⟩

theorem scanConfiguration_driver {v : Verdict Selection} {t₁ : State} (same : Unwritten t s)
    (load : t.loadConfiguration env c = (confSize, t₁)) (round : s.scanConfiguration env c = some (v, s')) :
    Unwritten t₁ s' ∧ ∃ found, v = settle confSize found ∧ found.join.map Prod.snd =
      (t₁.interfaces confSize (t₁.conf 4).toNat 0).findSome? (usbLookupDriver env.drivers) := by
  have loads := loadConfiguration_congr env c same
  rcases load' : s.loadConfiguration env c with ⟨confSize', s₁⟩
  rw [load, load'] at loads
  obtain ⟨rfl, same₁⟩ : confSize = confSize' ∧ Unwritten t₁ s₁ := loads
  rw [scanConfiguration_eq load', map_eq_some_iff] at round
  obtain ⟨⟨found, s₂⟩, looked, ⟨⟩⟩ := round
  rw [same₁.conf] at looked
  obtain ⟨driver, same₂⟩ := interfaces_driver (same₁.access _) looked
  exact ⟨same₂, found, rfl, driver⟩

/-- The loop over the configurations finds the driver of the first one that has one. -/
theorem configurations_driver {found : Option Selection} (same : Unwritten t s)
    (ended : loop (scanConfiguration env) left c s = some (found, s')) :
    found.map Selection.udd = Usb.usbConfigureDevice env.drivers (configurations env left c t) := by
  induction left generalizing c s t with
  | zero =>
    cases ended
    rfl
  | succ left ih =>
    rcases load : t.loadConfiguration env c with ⟨confSize, t₁⟩
    rw [Usb.usbConfigureDevice, configurations, load, findSome?_cons]
    rcases loop_cases ended with ⟨s₁, first, rest⟩ | ⟨result, first, rfl⟩
    · obtain ⟨same₁, found', goesOn, driver⟩ := scanConfiguration_driver same load first
      rw [← driver]
      rcases found' with _ | _ | ⟨confIfc, udd⟩
      · exact ih same₁ rest
      · exact ih same₁ rest
      · cases goesOn
    · obtain ⟨-, found', stops, driver⟩ := scanConfiguration_driver same load first
      rw [← driver]
      rcases found' with _ | _ | ⟨confIfc, udd⟩
      · cases stops
      · cases stops
      · cases stops
        rfl

end State

/-- A call that returns has started the driver that is found among the interfaces, if there is one. -/
theorem usbConfigureDevice_started {env : Env} {address : BitVec 32} {mem : ℕ → BitVec 8} {udev : UsbDev} {rc : ℤ}
    {s : State} (returned : usbConfigureDevice env address mem udev = some (rc, s)) :
    Usb.usbConfigureDevice env.drivers
        (State.configurations env (env.configurationsNum mem) 0 (readDeviceDescriptor env mem udev)) =
      if rc = 0 then s.started else none := by
  rcases usbConfigureDevice_cases returned with ⟨select, rfl⟩ | ⟨selection, s₁, s₂, select, -, rfl, rfl⟩
  all_goals
    have driver := State.configurations_driver Unwritten.rfl select
    rw [configurationsNum_readDeviceDescriptor] at driver
    exact driver.symm

/-- A device that answers each transfer in full with these bytes. -/
def scripted (replies : List (List (BitVec 8))) : Env where
  drivers := [usbMassStorageDriver]
  reply n := ⟨true, 0, fun k => (replies.getD n []).getD k 0⟩
  null := fun _ => 0

def plain : UsbDev :=
  ⟨.fs, 0, .attached, 0, 0, 0, ⟨0, 0, 0⟩, 0, none, 0, fun _ => controlPipe 0⟩

def singleConfiguration : List (BitVec 8) := [18, 1, 0x10, 1, 0, 0, 0, 64, 0, 0, 0, 0, 0, 0, 0, 0, 0, 1]

def flashDrive : List (BitVec 8) :=
  [9, 2, 32, 0, 1, 1, 0, 0x80, 50, 9, 4, 0, 0, 2, 8, 6, 0x50, 0, 7, 5, 0x81, 2, 64, 0, 0, 7, 5, 2, 2, 64, 0, 0]

theorem tame_flashDrive :
    Safe (scripted [singleConfiguration, flashDrive, flashDrive]) 1 (fun _ => 0) plain ∧
      (scripted [singleConfiguration, flashDrive, flashDrive]).Tame (fun _ => 0) := by
  have safe : Safe (scripted [singleConfiguration, flashDrive, flashDrive]) 1 (fun _ => 0) plain := by decide
  exact ⟨safe, safe_iff_tame.1 safe⟩

/-- A configuration of which the first descriptor has no length. -/
def endless : List (BitVec 8) := [0, 2, 9, 0, 1, 1, 0, 0x80, 50]

/-- A header that says that the configuration has 600 bytes. -/
def oversized : List (BitVec 8) := [9, 2, 0x58, 2, 1, 1, 0, 0x80, 50]

/-- An interface that says that it has two endpoints, without a descriptor of one. -/
def dangling : List (BitVec 8) := [9, 2, 18, 0, 1, 1, 0, 0x80, 50, 9, 4, 0, 0, 2, 8, 6, 0x50, 0]

/-- The call loops for ever, it writes behind the buffer, and it reads through `NULL`. -/
theorem hostile_devices :
    usbConfigureDevice (scripted [singleConfiguration, endless, endless]) 1 (fun _ => 0) plain = none ∧
      ¬Safe (scripted [singleConfiguration, endless, endless]) 1 (fun _ => 0) plain ∧
      ¬Safe (scripted [singleConfiguration, oversized, flashDrive]) 1 (fun _ => 0) plain ∧
      ¬Safe (scripted [singleConfiguration, dangling, dangling]) 1 (fun _ => 0) plain := by
  refine ⟨?_, ?_, ?_, ?_⟩
  all_goals decide

end MicroOs.Enumeration
