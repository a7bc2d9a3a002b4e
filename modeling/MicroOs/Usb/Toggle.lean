import MicroOs.Usb.TransferDescriptors
import Mathlib.Algebra.Ring.Parity
import Mathlib.Data.BitVec

/-! # Data toggles of a mass storage device

The packets of an endpoint carry a toggle bit. The host advances `toggle_bit` of a pipe for each packet it builds, the
device advances the bit of the endpoint for each packet it acknowledges. When a command fails, `usb_msd_read_write`
resets the device and clears the halt of both bulk endpoints, upon which the device goes back to DATA0. The request is
a control transfer, so it is the bit of pipe 0 that the host resets.

How each transfer ends is an input of the call. A transfer that stalls has left some packet without acknowledgement,
and a transfer for which no descriptor can be allocated is given up before it starts.
-/

namespace MicroOs.MassStorage

open Function List

/-- The pipes that the driver of a mass storage device uses. -/
inductive Pipe
  | control | bulkIn | bulkOut
deriving DecidableEq

inductive Pid
  | setup | input | output
deriving DecidableEq

inductive Direction
  | read | write
deriving DecidableEq

def errNoMem : ℤ := -1
def errDevStalled : ℤ := -2
def errXfer : ℤ := -3
def errProto : ℤ := -4

/-- `max_packet_size` of each pipe. -/
structure Device where
  maxPacketSize : Pipe → ℕ
  positive : ∀ pipe, 0 < maxPacketSize pipe

/-- The toggle bits of both sides, and the tag of the next command. -/
structure Bus where
  host : Pipe → Bool
  device : Pipe → Bool
  cbwTag : BitVec 32

inductive Outcome
  /-- all packets are acknowledged, with so many bytes in them -/
  | complete (bytes : ℕ)
  /-- so many packets are acknowledged before one fails -/
  | stall (acknowledged : ℕ)
  /-- so many packets are built before there is no memory for one -/
  | noMemory (built : ℕ)

/-- The transfer ends well and carries all of its bytes. -/
def Outcome.Full (size : ℕ) : Outcome → Prop
  | complete bytes => size ≤ bytes
  | _ => False

instance (size : ℕ) : DecidablePred (Outcome.Full size)
  | .complete bytes => inferInstanceAs (Decidable (size ≤ bytes))
  | .stall _ => .isFalse id
  | .noMemory _ => .isFalse id

def Outcome.built (count : ℕ) : Outcome → ℕ
  | complete _ | stall _ => count
  | noMemory built => min built (count - 1)

/-- The packets that the device acknowledges of so many. -/
def Outcome.acknowledged (count : ℕ) : Outcome → ℕ
  | complete _ => count
  | stall acknowledged => min acknowledged (count - 1)
  | noMemory _ => 0

/-- The sizes of the packets that the loop of `uhci_read_write` builds. -/
def packets (maxPacketSize : ℕ) : ℕ → ℕ → List ℕ
  | 0, _ => []
  | fuel + 1, remaining =>
    let packet := if maxPacketSize < remaining then maxPacketSize else remaining
    packet :: if 0 < remaining - packet then packets maxPacketSize fuel (remaining - packet) else []

theorem packets_length {maxPacketSize : ℕ} (positive : 0 < maxPacketSize) {fuel remaining : ℕ}
    (enough : remaining < fuel) :
    (packets maxPacketSize fuel remaining).length = max 1 ((remaining + (maxPacketSize - 1)) / maxPacketSize) := by
  induction fuel generalizing remaining with
  | zero => omega
  | succ fuel ih =>
    have rounded : remaining ≤ maxPacketSize → (remaining + (maxPacketSize - 1)) / maxPacketSize ≤ 1 := fun small =>
      Nat.lt_succ_iff.1 ((Nat.div_lt_iff_lt_mul positive).2 (by omega))
    simp only [packets]
    split_ifs with large more done
    · have same : remaining - maxPacketSize + (maxPacketSize - 1) = remaining - 1 := by omega
      have next : remaining + (maxPacketSize - 1) = remaining - 1 + maxPacketSize := by omega
      have one : 1 ≤ (remaining - 1) / maxPacketSize := (Nat.one_le_div_iff positive).2 (by omega)
      rw [length_cons, ih (by omega), same, next, Nat.add_div_right _ positive]
      omega
    · omega
    · omega
    · exact (max_eq_left (rounded (by omega))).symm

def packetCount (d : Device) (pipe : Pipe) (size : ℕ) : ℕ := (packets (d.maxPacketSize pipe) (size + 1) size).length

namespace Bus

def advance (s : Bus) (pipe : Pipe) (built acknowledged : ℕ) : Bus :=
  { s with
    host := update s.host pipe (not^[built] (s.host pipe))
    device := update s.device pipe (not^[acknowledged] (s.device pipe)) }

/-- A SETUP packet begins with DATA0 on both sides. -/
def begin (s : Bus) (pipe : Pipe) (pid : Pid) : Bus :=
  if pid = .setup then
    { s with host := update s.host pipe false, device := update s.device pipe false }
  else s

end Bus

/-- The toggle bits after the transfer, and the value returned. -/
def uhciReadWrite (d : Device) (pipe : Pipe) (pid : Pid) (size : ℕ) (outcome : Outcome) (s : Bus) : Bus × ℤ :=
  let s := s.begin pipe pid
  let count := packetCount d pipe size
  match outcome with
  | .complete bytes => (s.advance pipe count count, (min bytes size : ℕ))
  | .stall acknowledged => (s.advance pipe count (min acknowledged (count - 1)), errDevStalled)
  | .noMemory built => (s.advance pipe (min built (count - 1)) 0, errNoMem)

inductive Request
  /-- the reset of the mass storage class, which leaves the toggle bits alone -/
  | reset
  | clearHalt (pipe : Pipe)

def Bus.receive (s : Bus) : Request → Bus
  | .reset => s
  | .clearHalt pipe => { s with device := update s.device pipe false }

structure Control where
  setup : Outcome
  data : Outcome
  status : Outcome

/-- The data stage and the status stage of a control transfer. -/
def controlStages (d : Device) (o : Control) (dir : Direction) (size : ℕ) (s : Bus) : Bus × ℤ :=
  let (s, rc) :=
    if 0 < size then
      match dir with
      | .read => uhciReadWrite d .control .input size o.data s
      | .write => uhciReadWrite d .control .output size o.data s
    else (s, (size : ℤ))
  if rc ≠ size then (s, errXfer)
  else
    let s := { s with host := update s.host .control true }
    let (s, rc) :=
      match dir with
      | .read => uhciReadWrite d .control .output 0 o.status s
      | .write => uhciReadWrite d .control .input 0 o.status s
    if rc ≠ 0 then (s, errXfer) else (s, 0)

/-- A control transfer uses pipe 0. The device has the request once the setup stage is through. -/
def controlTransfer (d : Device) (o : Control) (request : Request) (dir : Direction) (size : ℕ) (s : Bus) : Bus × ℤ :=
  let (s, rc) := uhciReadWrite d .control .setup 8 o.setup s
  if rc ≠ 8 then (s, errXfer) else controlStages d o dir size (s.receive request)

def usbMsdReset (d : Device) (o : Control) (s : Bus) : Bus := (controlTransfer d o .reset .write 0 s).1

/-- `usb_msd_clear_halt`: `usb_setup` goes through the control pipe, whatever pipe it is given. -/
def usbMsdClearHalt (d : Device) (o : Control) (pipe : Pipe) (s : Bus) : Bus :=
  (controlTransfer d o (.clearHalt pipe) .write 0 s).1

def cbMaxSize : ℕ := 16
def cbwSize : ℕ := 31
def cswSize : ℕ := 13
def cswSignature : BitVec 32 := 0x53425355#32
def cswPhaseError : BitVec 8 := 2#8

/-- `struct command_status_wrapper`, as the device sends it. -/
structure StatusWrapper where
  signature : BitVec 32
  tag : BitVec 32
  status : BitVec 8

/-- A call of `usb_msd_read_write`, with what the device makes of it. -/
structure Call where
  dir : Direction
  cbSize : ℕ
  length : ℤ
  command : Outcome
  data : Outcome
  status : Outcome
  csw : StatusWrapper
  reset : Control
  clearIn : Control
  clearOut : Control

def dataStage (d : Device) (c : Call) (s : Bus) : Bus × ℤ :=
  if 0 < c.length then
    match c.dir with
    | .read => uhciReadWrite d .bulkIn .input c.length.toNat c.data s
    | .write => uhciReadWrite d .bulkOut .output c.length.toNat c.data s
  else (s, c.length)

/-- `usb_msd_read_write` up to its label `reset_dev`, where it goes unless it returns a value. -/
def command (d : Device) (c : Call) (s : Bus) : Bus × Option ℤ :=
  let tag := s.cbwTag
  let s := { s with cbwTag := tag + 1 }
  if cbMaxSize < c.cbSize then (s, some errProto)
  else
    let (s, rc) := uhciReadWrite d .bulkOut .output cbwSize c.command s
    if rc ≠ cbwSize then (s, none)
    else
      let (s, rc) := dataStage d c s
      if rc < c.length then (s, none)
      else
        let (s, rc) := uhciReadWrite d .bulkIn .input cswSize c.status s
        if rc ≠ cswSize then (s, none)
        else if c.csw.signature ≠ cswSignature ∨ c.csw.tag ≠ tag ∨ c.csw.status = cswPhaseError then (s, none)
        else (s, some c.csw.status.toNat)

/-- The code behind the label `reset_dev`. -/
def resetDev (d : Device) (c : Call) (s : Bus) : Bus :=
  usbMsdClearHalt d c.clearOut .bulkOut (usbMsdClearHalt d c.clearIn .bulkIn (usbMsdReset d c.reset s))

def usbMsdReadWrite (d : Device) (c : Call) (s : Bus) : Bus × ℤ :=
  match command d c s with
  | (s, some rc) => (s, rc)
  | (s, none) => (resetDev d c s, errXfer)

/-- The toggle bits after a sequence of calls. -/
def calls (d : Device) (s : Bus) (cs : List Call) : Bus := cs.foldl (fun s c => (usbMsdReadWrite d c s).1) s

/-- Host and device agree on the toggle of a pipe. -/
def AgreeOn (s : Bus) (pipe : Pipe) : Prop := s.host pipe = s.device pipe

/-- They agree on both bulk pipes. -/
def Agree (s : Bus) : Prop := AgreeOn s .bulkIn ∧ AgreeOn s .bulkOut

variable {alloc : ℕ → Option (BitVec 28)}

section Transfers

variable {d : Device} {pipe other : Pipe} {pid : Pid} {size : ℕ} {outcome : Outcome} {s : Bus} {c : Call}

theorem uhciReadWrite_ne (different : other ≠ pipe) :
    (uhciReadWrite d pipe pid size outcome s).1.host other = s.host other ∧
      (uhciReadWrite d pipe pid size outcome s).1.device other = s.device other := by
  have begun : (s.begin pipe pid).host other = s.host other ∧ (s.begin pipe pid).device other = s.device other := by
    unfold Bus.begin
    split_ifs with setup
    · exact ⟨update_of_ne different .., update_of_ne different ..⟩
    · exact ⟨rfl, rfl⟩
  cases outcome with
  | complete | stall | noMemory =>
    simp only [uhciReadWrite, Bus.advance, update_of_ne different]
    exact begun

theorem uhciReadWrite_result : (uhciReadWrite d pipe pid size outcome s).2 = size ↔ outcome.Full size := by
  cases outcome with
  | complete bytes =>
    simp only [uhciReadWrite, Outcome.Full]
    omega
  | stall acknowledged =>
    refine iff_of_false ?_ id
    simp only [uhciReadWrite, errDevStalled]
    omega
  | noMemory built =>
    refine iff_of_false ?_ id
    simp only [uhciReadWrite, errNoMem]
    omega

theorem full_of_le (long : size ≤ (uhciReadWrite d pipe pid size outcome s).2) : outcome.Full size := by
  cases outcome with
  | complete bytes =>
    simp only [uhciReadWrite] at long
    simp only [Outcome.Full]
    omega
  | stall acknowledged =>
    simp only [uhciReadWrite, errDevStalled] at long
    omega
  | noMemory built =>
    simp only [uhciReadWrite, errNoMem] at long
    omega

/-- A bulk transfer moves the host on by the packets that are built, and the device by those that it acknowledges. -/
theorem uhciReadWrite_bulk (bulk : pid ≠ .setup) (at_ : Pipe) :
    (uhciReadWrite d pipe pid size outcome s).1.host at_ =
        not^[if pipe = at_ then outcome.built (packetCount d pipe size) else 0] (s.host at_) ∧
      (uhciReadWrite d pipe pid size outcome s).1.device at_ =
        not^[if pipe = at_ then outcome.acknowledged (packetCount d pipe size) else 0] (s.device at_) := by
  by_cases same : pipe = at_
  · subst same
    cases outcome with
    | complete | stall | noMemory =>
      simp [uhciReadWrite, Bus.begin, bulk, Bus.advance, Outcome.built, Outcome.acknowledged]
  · rw [if_neg same, if_neg same]
    exact uhciReadWrite_ne (Ne.symm same)

def Pid.code : Pid → BitVec 8
  | .setup => Uhci.uhciTdPidSetup
  | .input => Uhci.uhciTdPidIn
  | .output => Uhci.uhciTdPidOut

/-- The descriptors that there is memory for are the packets that are built. -/
structure Outcome.Allocates (outcome : Outcome) (count : ℕ) (alloc : ℕ → Option (BitVec 28)) : Prop where
  built : ∀ n < outcome.built count, alloc n ≠ none
  ends : outcome.built count < count → alloc (outcome.built count) = none

/-- The loop over the descriptors flips the toggle bit once for each packet that it builds. -/
theorem buildTds_toggle {p : Uhci.Pipe} {code : BitVec 8} {data : BitVec 32}
    {x : Uhci.Xfer} {fuel remaining k : ℕ} (le : k ≤ (packets p.maxPacketSize.toNat fuel remaining).length)
    (built : ∀ n < k, alloc (x.tds.length + n) ≠ none)
    (ends : k < (packets p.maxPacketSize.toNat fuel remaining).length → alloc (x.tds.length + k) = none) :
    (Uhci.buildTds code alloc fuel p remaining data x).1.toggleBit = not^[k] p.toggleBit := by
  induction fuel generalizing p remaining data x k with
  | zero =>
    obtain rfl : k = 0 := Nat.le_zero.1 le
    rfl
  | succ fuel ih =>
    simp only [Uhci.buildTds]
    cases k with
    | zero =>
      rw [show alloc x.tds.length = none from ends (by simp [packets])]
      rfl
    | succ k =>
      obtain ⟨place, found⟩ := Option.ne_none_iff_exists'.1 (built 0 k.succ_pos)
      rw [show alloc x.tds.length = some place from found]
      by_cases large : p.maxPacketSize.toNat < remaining
      · have more : 0 < remaining - p.maxPacketSize.toNat := Nat.sub_pos_of_lt large
        simp only [packets, if_pos large, if_pos more, length_cons, Nat.succ_lt_succ_iff] at le ends ⊢
        refine (ih (p := { p with toggleBit := !p.toggleBit }) (Nat.succ_le_succ_iff.1 le) ?_ ?_).trans rfl
        · intro n less
          rw [Uhci.length_xferAddTdc, Nat.add_assoc, Nat.add_comm 1]
          exact built (n + 1) (Nat.succ_lt_succ less)
        · rw [Uhci.length_xferAddTdc, Nat.add_assoc, Nat.add_comm 1]
          exact ends
      · simp only [packets, if_neg large, Nat.sub_self, lt_irrefl, if_false, length_singleton] at le ⊢
        obtain rfl : k = 0 := by omega
        rfl

/-- The toggle bit of the host is the one that the descriptors of the transfer leave in the pipe. -/
theorem uhciReadWrite_host {p : Uhci.Pipe} {data : BitVec 32}
    (same : p.maxPacketSize.toNat = d.maxPacketSize pipe) (toggle : p.toggleBit = s.host pipe)
    (memory : outcome.Allocates (packetCount d pipe size) alloc) :
    (uhciReadWrite d pipe pid size outcome s).1.host pipe =
      (Uhci.uhciReadWrite p pid.code size data alloc).1.toggleBit := by
  have host : (uhciReadWrite d pipe pid size outcome s).1.host pipe =
      not^[outcome.built (packetCount d pipe size)] ((s.begin pipe pid).host pipe) := by
    cases outcome with
    | complete | stall | noMemory => simp [uhciReadWrite, Bus.advance, Outcome.built]
  have count : (packets p.maxPacketSize.toNat (size + 1) size).length = packetCount d pipe size := by
    rw [same, packetCount]
  have le : outcome.built (packetCount d pipe size) ≤ packetCount d pipe size := by
    cases outcome with
    | complete | stall => exact le_rfl
    | noMemory built => exact (min_le_right ..).trans (Nat.sub_le ..)
  have first : (if pid.code = Uhci.uhciTdPidSetup then { p with toggleBit := false } else p) =
      { p with toggleBit := (s.begin pipe pid).host pipe } := by
    cases pid with
    | setup => simp [Pid.code, Bus.begin]
    | input | output => simp [Pid.code, Bus.begin, Uhci.uhciTdPidIn, Uhci.uhciTdPidOut, Uhci.uhciTdPidSetup, ← toggle]
  rw [host, Uhci.uhciReadWrite, first]
  refine (buildTds_toggle (p := { p with toggleBit := (s.begin pipe pid).host pipe })
    (le.trans_eq count.symm) ?_ ?_).symm
  · simpa using memory.built
  · simpa [count] using memory.ends

end Transfers

section Recovery

variable {d : Device} {pipe : Pipe} {o : Control} {request : Request} {dir : Direction} {size : ℕ} {s : Bus} {c : Call}

section

variable (bulk : pipe ≠ .control)
include bulk

theorem controlStages_ne : (controlStages d o dir size s).1.host pipe = s.host pipe ∧
      (controlStages d o dir size s).1.device pipe = s.device pipe := by
  unfold controlStages
  cases dir with
  | read | write =>
    dsimp only
    split_ifs <;> simp [uhciReadWrite_ne bulk, update_of_ne bulk]

theorem controlTransfer_host : (controlTransfer d o request dir size s).1.host pipe = s.host pipe := by
  unfold controlTransfer
  dsimp only
  split_ifs with failed
  · exact (uhciReadWrite_ne bulk).1
  · rw [(controlStages_ne bulk).1]
    cases request with
    | reset | clearHalt => exact (uhciReadWrite_ne bulk).1

theorem controlTransfer_device : (controlTransfer d o request dir size s).1.device pipe =
      if o.setup.Full 8 then (s.receive request).device pipe else s.device pipe := by
  have setup : (uhciReadWrite d .control .setup 8 o.setup s).2 = 8 ↔ o.setup.Full 8 := uhciReadWrite_result
  unfold controlTransfer
  dsimp only
  split_ifs with failed full full
  · exact absurd (setup.2 full) failed
  · exact (uhciReadWrite_ne bulk).2
  · rw [(controlStages_ne bulk).2]
    cases request with
    | reset => exact (uhciReadWrite_ne bulk).2
    | clearHalt other =>
      by_cases same : pipe = other
      · subst same
        simp [Bus.receive]
      · simp [Bus.receive, update_of_ne same, uhciReadWrite_ne bulk]
  · exact absurd (setup.1 (not_ne_iff.1 failed)) full

theorem resetDev_host : (resetDev d c s).host pipe = s.host pipe := by
  simp [resetDev, usbMsdClearHalt, usbMsdReset, controlTransfer_host bulk]

end

theorem resetDev_device_bulkIn :
    (resetDev d c s).device .bulkIn = if c.clearIn.setup.Full 8 then false else s.device .bulkIn := by
  have bulk : Pipe.bulkIn ≠ .control := by decide
  simp [resetDev, usbMsdClearHalt, usbMsdReset, controlTransfer_device bulk, Bus.receive]

theorem resetDev_device_bulkOut :
    (resetDev d c s).device .bulkOut = if c.clearOut.setup.Full 8 then false else s.device .bulkOut := by
  have bulk : Pipe.bulkOut ≠ .control := by decide
  simp [resetDev, usbMsdClearHalt, usbMsdReset, controlTransfer_device bulk, Bus.receive]

end Recovery

/-- A transfer on a bulk pipe, with the way it ends. -/
structure Transfer where
  pipe : Pipe
  size : ℕ
  outcome : Outcome

def Transfer.Full (t : Transfer) : Prop := t.outcome.Full t.size

instance : DecidablePred Transfer.Full := fun t => inferInstanceAs (Decidable (t.outcome.Full t.size))

namespace Call

def commandTransfer (c : Call) : Transfer := ⟨.bulkOut, cbwSize, c.command⟩

def dataTransfers (c : Call) : List Transfer :=
  if 0 < c.length then
    match c.dir with
    | .read => [⟨.bulkIn, c.length.toNat, c.data⟩]
    | .write => [⟨.bulkOut, c.length.toNat, c.data⟩]
  else []

def statusTransfer (c : Call) : Transfer := ⟨.bulkIn, cswSize, c.status⟩

def planned (c : Call) : List Transfer := c.commandTransfer :: (c.dataTransfers ++ [c.statusTransfer])

/-- The call goes to `reset_dev`: the command block is not refused, and a transfer falls short or the status is
wrong. -/
def Fails (c : Call) (tag : BitVec 32) : Prop :=
  c.cbSize ≤ cbMaxSize ∧ ¬((∀ t ∈ c.planned, t.Full) ∧
    c.csw.signature = cswSignature ∧ c.csw.tag = tag ∧ c.csw.status ≠ cswPhaseError)

end Call

/-- A transfer that falls short is the last one. -/
def made : List Transfer → List Transfer
  | [] => []
  | t :: rest => t :: if t.Full then made rest else []

/-- A transfer of so many bytes has one packet at least; all but the last one are full. -/
def packetsOf (d : Device) (t : Transfer) : ℕ :=
  max 1 ((t.size + (d.maxPacketSize t.pipe - 1)) / d.maxPacketSize t.pipe)

def built (d : Device) (pipe : Pipe) (ts : List Transfer) : ℕ :=
  (ts.map fun t => if t.pipe = pipe then t.outcome.built (packetsOf d t) else 0).sum

def acknowledged (d : Device) (pipe : Pipe) (ts : List Transfer) : ℕ :=
  (ts.map fun t => if t.pipe = pipe then t.outcome.acknowledged (packetsOf d t) else 0).sum

/-- If the device takes the request for a pipe in, the packets built bring the host to DATA0 as well; otherwise they
are as many as are acknowledged, up to an even number. -/
def Restores (d : Device) (s : Bus) (ts : List Transfer) (pipe : Pipe) (clear : Control) : Prop :=
  if clear.setup.Full 8 then Even ((s.host pipe).toNat + built d pipe ts)
  else Even (built d pipe ts + acknowledged d pipe ts)

/-- A call that fails does so behind a number of packets that does not matter. -/
def Harmless (d : Device) (s : Bus) (c : Call) : Prop :=
  c.Fails s.cbwTag → Restores d s (made c.planned) .bulkIn c.clearIn ∧ Restores d s (made c.planned) .bulkOut c.clearOut

section Packets

variable {d : Device} {s s' s'' : Bus} {c : Call} {ts us : List Transfer}

theorem iterate_not (n : ℕ) (b : Bool) : not^[n] b = if Even n then b else !b := by
  split_ifs with even
  · rw [Bool.involutive_not.iterate_even even, id_eq]
  · rw [Bool.involutive_not.iterate_odd (Nat.not_even_iff_odd.1 even)]

theorem iterate_not_eq_false {n : ℕ} {b : Bool} : not^[n] b = false ↔ Even (b.toNat + n) := by
  rw [iterate_not]
  cases b <;> split_ifs with even <;> simp [Nat.even_add, even]

theorem iterate_not_eq_iterate {m n : ℕ} {b : Bool} : not^[m] b = not^[n] b ↔ Even (m + n) := by
  rw [iterate_not, iterate_not, Nat.even_add]
  split_ifs with even even' even' <;> simp [even, even']

theorem packetCount_eq (t : Transfer) : packetCount d t.pipe t.size = packetsOf d t :=
  packets_length (d.positive t.pipe) t.size.lt_add_one

/-- The bulk pipes behind transfers. -/
structure Moved (d : Device) (ts : List Transfer) (s s' : Bus) : Prop where
  host : ∀ pipe, s'.host pipe = not^[built d pipe ts] (s.host pipe)
  device : ∀ pipe, s'.device pipe = not^[acknowledged d pipe ts] (s.device pipe)

theorem Moved.trans (first : Moved d ts s s') (second : Moved d us s' s'') : Moved d (ts ++ us) s s'' where
  host pipe := by
    rw [second.host, first.host, ← iterate_add_apply, add_comm]
    simp [built]
  device pipe := by
    rw [second.device, first.device, ← iterate_add_apply, add_comm]
    simp [acknowledged]

theorem moved_transfer (t : Transfer) (pid : Pid) (bulk : pid ≠ .setup) :
    Moved d [t] s (uhciReadWrite d t.pipe pid t.size t.outcome s).1 where
  host pipe := by
    rw [(uhciReadWrite_bulk bulk pipe).1, packetCount_eq]
    simp [built]
  device pipe := by
    rw [(uhciReadWrite_bulk bulk pipe).2, packetCount_eq]
    simp [acknowledged]

theorem dataStage_moved : Moved d c.dataTransfers s (dataStage d c s).1 := by
  unfold dataStage Call.dataTransfers
  split_ifs with some
  · cases c.dir with
    | read => exact moved_transfer ⟨.bulkIn, c.length.toNat, c.data⟩ .input (by decide)
    | write => exact moved_transfer ⟨.bulkOut, c.length.toNat, c.data⟩ .output (by decide)
  · exact ⟨fun _ => rfl, fun _ => rfl⟩

theorem dataStage_full : c.length ≤ (dataStage d c s).2 ↔ ∀ t ∈ c.dataTransfers, t.Full := by
  unfold dataStage Call.dataTransfers
  split_ifs with some
  · have size : (c.length.toNat : ℤ) = c.length := Int.toNat_of_nonneg some.le
    cases c.dir with
    | read | write =>
      rw [forall_mem_singleton, Transfer.Full]
      exact ⟨fun long => full_of_le (size.le.trans long),
        fun full => (size.symm.trans (uhciReadWrite_result.2 full).symm).le⟩
  · simp

theorem made_dataTransfers (rest : List Transfer) :
    made (c.dataTransfers ++ rest) =
      c.dataTransfers ++ if ∀ t ∈ c.dataTransfers, t.Full then made rest else [] := by
  obtain none | ⟨t, one⟩ : c.dataTransfers = [] ∨ ∃ t, c.dataTransfers = [t] := by
    unfold Call.dataTransfers
    split_ifs with some
    · cases c.dir with
      | read | write => exact .inr ⟨_, rfl⟩
    · exact .inl rfl
  · simp [none]
  · simp [one, made]

/-- What a call does to the bulk pipes before `reset_dev`, and when it goes there. -/
theorem command_moved (fits : c.cbSize ≤ cbMaxSize) :
    Moved d (made c.planned) s (command d c s).1 ∧ ((command d c s).2 = none ↔ c.Fails s.cbwTag) := by
  have sends : Moved d [c.commandTransfer] s
      (uhciReadWrite d .bulkOut .output cbwSize c.command { s with cbwTag := s.cbwTag + 1 }).1 :=
    ⟨(moved_transfer c.commandTransfer .output (by decide)).host,
      (moved_transfer c.commandTransfer .output (by decide)).device⟩
  have states {s} : Moved d [c.statusTransfer] s (uhciReadWrite d .bulkIn .input cswSize c.status s).1 :=
    moved_transfer c.statusTransfer .input (by decide)
  have sent {s} : (uhciReadWrite d .bulkOut .output cbwSize c.command s).2 = cbwSize ↔ c.commandTransfer.Full :=
    uhciReadWrite_result
  have stated {s} : (uhciReadWrite d .bulkIn .input cswSize c.status s).2 = cswSize ↔ c.statusTransfer.Full :=
    uhciReadWrite_result
  rw [Call.Fails, Call.planned, made, made_dataTransfers, made, made, forall_mem_cons, forall_mem_append,
    forall_mem_singleton]
  unfold command
  simp only [ne_eq, sent, stated, ← not_le, dataStage_full, ite_self]
  split_ifs with sent whole stated wrong
  · exact ⟨sends.trans (dataStage_moved.trans states), by simp [fits, sent, stated]; tauto⟩
  · exact ⟨sends.trans (dataStage_moved.trans states), by simp [fits, sent, stated]; tauto⟩
  · exact ⟨sends.trans (dataStage_moved.trans states), by simp [fits, stated]⟩
  · rw [append_nil]
    exact ⟨sends.trans dataStage_moved, by simp [fits, whole]⟩
  · exact ⟨sends, by simp [fits, sent]⟩

theorem built_eq_acknowledged (full : ∀ t ∈ ts, t.Full) (pipe : Pipe) : built d pipe ts = acknowledged d pipe ts := by
  refine congrArg sum (map_congr_left fun t member => ?_)
  cases outcome : t.outcome with
  | complete => rfl
  | stall | noMemory =>
    have whole : t.outcome.Full t.size := full t member
    rw [outcome] at whole
    exact whole.elim

theorem made_of_full (full : ∀ t ∈ ts, t.Full) : made ts = ts := by
  induction ts with
  | nil => rfl
  | cons t rest ih =>
    rw [made, if_pos (full t mem_cons_self), ih fun u member => full u (mem_cons_of_mem t member)]

theorem usbMsdReadWrite_bus : (usbMsdReadWrite d c s).1 =
    if (command d c s).2 = none then resetDev d c (command d c s).1 else (command d c s).1 := by
  unfold usbMsdReadWrite
  split <;> rename_i returns <;> simp [returns]

theorem restores_iff {pipe : Pipe} {clear : Control} (agree : AgreeOn s pipe) :
    (not^[built d pipe ts] (s.host pipe) =
        if clear.setup.Full 8 then false else not^[acknowledged d pipe ts] (s.device pipe)) ↔
      Restores d s ts pipe clear := by
  unfold Restores
  split_ifs with cleared
  · exact iterate_not_eq_false
  · rw [← agree]
    exact iterate_not_eq_iterate

/-- A call keeps the agreement exactly if it is harmless. -/
theorem agree_call_iff (agree : Agree s) : Agree (usbMsdReadWrite d c s).1 ↔ Harmless d s c := by
  rw [usbMsdReadWrite_bus]
  rcases Nat.lt_or_ge cbMaxSize c.cbSize with refused | fits
  · have returns : command d c s = ({ s with cbwTag := s.cbwTag + 1 }, some errProto) := by
      unfold command
      rw [if_pos refused]
    rw [returns]
    exact iff_of_true agree fun fails => absurd fails.1 (Nat.not_le.2 refused)
  obtain ⟨moved, none⟩ := command_moved (d := d) (s := s) fits
  unfold Harmless
  split_ifs with failed
  · rw [forall_prop_of_true (none.1 failed), Agree, AgreeOn, AgreeOn, resetDev_host (by decide),
      resetDev_host (by decide), resetDev_device_bulkIn, resetDev_device_bulkOut, moved.host, moved.host, moved.device,
      moved.device, restores_iff agree.1, restores_iff agree.2]
  · have fails : ¬c.Fails s.cbwTag := mt none.2 failed
    have full : ∀ t ∈ c.planned, t.Full := by
      by_contra short
      exact fails ⟨fits, fun passes => short passes.1⟩
    have same (pipe : Pipe) (agree : AgreeOn s pipe) : AgreeOn (command d c s).1 pipe := by
      rw [AgreeOn, moved.host, moved.device, agree, made_of_full full, built_eq_acknowledged full]
    exact iff_of_true ⟨same .bulkIn agree.1, same .bulkOut agree.2⟩ fun failed => absurd failed fails

end Packets

theorem calls_snoc (d : Device) (s : Bus) (cs : List Call) (c : Call) :
    calls d s (cs ++ [c]) = (usbMsdReadWrite d c (calls d s cs)).1 := by
  rw [calls, foldl_append]
  rfl

/-- Host and device agree on the toggles of the bulk pipes whenever a command starts, and in the end, exactly when
every call is harmless. -/
theorem toggles_agree_iff {d : Device} {s : Bus} (agree : Agree s) (cs : List Call) :
    (∀ before, before <+: cs → Agree (calls d s before)) ↔
      ∀ before c, before ++ [c] <+: cs → Harmless d (calls d s before) c := by
  constructor
  · intro always before c started
    rw [← agree_call_iff (always before ((prefix_append before [c]).trans started)), ← calls_snoc]
    exact always _ started
  · intro harmless before
    induction before using reverseRecOn with
    | nil => exact fun _ => agree
    | append_singleton before c ih =>
      intro started
      rw [calls_snoc, agree_call_iff (ih ((prefix_append before [c]).trans started))]
      exact harmless before c started

def fullSpeed : Device := ⟨fun _ => 64, fun _ => by decide⟩

def configured : Bus := ⟨fun _ => false, fun _ => false, 0⟩

/-- A transfer of all bytes of a control request without data. -/
def passes : Control := ⟨.complete 8, .complete 0, .complete 0⟩

/-- A read of 36 bytes, in which the data stage may fail. -/
def inquiry (data : Outcome) : Call :=
  ⟨.read, 6, 36, .complete 31, data, .complete 13, ⟨cswSignature, 0, 0⟩, passes, passes, passes⟩

/-- The device stalls the data stage of a command that it does not know. After the recovery the host goes on with
DATA1 on both pipes while the device expects DATA0. -/
theorem stalled_command_disagrees : Agree configured ∧ ¬Agree (calls fullSpeed configured [inquiry (.stall 0)]) := by
  refine ⟨⟨rfl, rfl⟩, ?_⟩
  simp only [Agree, AgreeOn]
  decide

/-- A command that passes is harmless. -/
theorem toggles_agree_inquiry :
    Agree configured ∧ ∀ before, before <+: [inquiry (.complete 36)] → Agree (calls fullSpeed configured before) := by
  have agree : Agree configured := ⟨rfl, rfl⟩
  refine ⟨agree, (toggles_agree_iff agree _).2 ?_⟩
  rintro before c ⟨after, split⟩
  obtain ⟨rfl, rfl⟩ : before = [] ∧ c = inquiry (.complete 36) := by
    cases before with
    | nil => simpa using And.left (cons.inj split)
    | cons first rest => simp at split
  exact fun fails => absurd ⟨by decide, rfl, rfl, by decide⟩ fails.2

end MicroOs.MassStorage
