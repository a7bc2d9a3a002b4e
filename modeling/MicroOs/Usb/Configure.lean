import MicroOs.Library.RecordChain
import MicroOs.Library.SearchLoop
import MicroOs.Usb.HotPlug

/-! # Configuring a device

`usb_configure_device` reads the descriptor of a device into the first bytes of a buffer, and behind it one
configuration after another. In each configuration it looks at the interfaces until a driver is found, and then it fills
the pipes from the descriptors of the endpoints. Interfaces and endpoints are found by `get_descriptor_ptr`, which walks
over the configuration from its first byte.

The device's answers to the control transfers are inputs of the model; what the transfers do to the toggle bit of the
control pipe is left out. All of the memory from the buffer on is given by its bytes, also what lies behind the buffer,
and so is the memory that `NULL` points to. The accesses whose place depends on the device are kept in a log. A pointer
into the configuration is given by its distance from the start.
-/

namespace MicroOs.Enumeration

open Usb SearchLoop RecordChain

def usbDeviceDescriptor : BitVec 8 := 0x01#8
def usbConfigurationDescriptor : BitVec 8 := 0x02#8
def usbInterfaceDescriptor : BitVec 8 := 0x04#8
def usbEndpointDescriptor : BitVec 8 := 0x05#8

def errXfer : ℤ := -3
def errNoDriver : ℤ := -1000

/-- `sizeof(struct usb_dev_descriptor)`: there the configuration begins in the buffer. -/
def usbDevDescriptorSize : ℕ := 18

def usbDevConfigurationSize : ℕ := 9

def buffSize : ℕ := 512
def maxUsbPipes : ℕ := 16

inductive UsbSpeedClass
  | ls | fs | hs
deriving DecidableEq

inductive UsbDeviceState
  | attached | powered | default | address | configured | suspended | noDriver
deriving DecidableEq

/-- `struct usb_pipe`, without its pointers. -/
structure UsbPipe where
  epAddress : BitVec 8
  direction : BitVec 8
  attributes : BitVec 8
  maxPacketSize : BitVec 16
  interval : BitVec 8
  toggleBit : Bool

/-- The fields of `struct usb_dev` that are set here. Behind the sixteen pipes lies other memory. -/
structure UsbDev where
  usbSc : UsbSpeedClass
  address : BitVec 8
  opState : UsbDeviceState
  vendor : BitVec 16
  product : BitVec 16
  configurationsNum : ℕ
  interface : Interface
  ifcNumber : BitVec 8
  udd : Option Driver
  pipeCount : ℕ
  pipe : ℕ → UsbPipe

/-- A control transfer: all bytes arrive, or it fails behind some of them. -/
structure Reply where
  ok : Bool
  received : ℕ
  data : ℕ → BitVec 8

/-- The bytes that arrive of those asked for. -/
def Reply.count (reply : Reply) (size : ℕ) : ℕ := if reply.ok then size else min reply.received size

inductive Request
  | getDescriptor (descType : BitVec 8) (descIndex size : ℕ)
  | setAddress (address : BitVec 16)
  | setConfiguration (value : BitVec 8)
  | setInterface (alternate number : BitVec 8)

/-- An access whose place depends on the device: bytes of the buffer are written, a byte of a descriptor is read,
with the size of the configuration, or a pipe is filled from a descriptor. -/
inductive Access
  | write (offset size : ℕ)
  | read (ptr : Option ℕ) (field : ℕ) (confSize : ℤ)
  | fill (pipeI : ℕ) (ptr : Option ℕ)

/-- The registered drivers, the device's answers in order, and the memory that `NULL` points to. -/
structure Env where
  drivers : List Driver
  reply : ℕ → Reply
  null : ℕ → BitVec 8

structure State where
  mem : ℕ → BitVec 8
  udev : UsbDev
  requests : List Request
  log : List Access
  started : Option Driver

def word (bytes : ℕ → BitVec 8) (offset : ℕ) : BitVec 16 := bytes (offset + 1) ++ bytes offset

/-- The driver that was chosen, with the interface it was chosen for. -/
structure Selection where
  confSize : ℤ
  confIfc : ℕ
  udd : Driver

/-- The codes of the interface that is described at a place. -/
def interfaceAt (bytes : ℕ → BitVec 8) (ptr : ℕ) : Interface := ⟨bytes (ptr + 5), bytes (ptr + 6), bytes (ptr + 7)⟩

/-- The pipe for the endpoint that is described by some bytes. -/
def pipeFor (bytes : ℕ → BitVec 8) : UsbPipe where
  epAddress := bytes 2 &&& 0x0f#8
  direction := if bytes 2 &&& 0x80#8 ≠ 0#8 then 1#8 else 0#8
  attributes := bytes 3
  maxPacketSize := word bytes 4
  interval := bytes 6
  toggleBit := false

namespace State

/-- The configuration in the buffer, and what lies behind it. -/
def conf (s : State) (offset : ℕ) : BitVec 8 := s.mem (usbDevDescriptorSize + offset)

def access (s : State) (accesses : List Access) : State := { s with log := s.log ++ accesses }

/-- Read some fields of the descriptor that a pointer points to. -/
def reads (s : State) (confSize : ℤ) (ptr : Option ℕ) (fields : List ℕ) : State :=
  s.access (fields.map (Access.read ptr · confSize))

def store (s : State) (offset size : ℕ) (data : ℕ → BitVec 8) : State :=
  { s with mem := fun k => if offset ≤ k ∧ k < offset + size then data (k - offset) else s.mem k }.access
    [.write offset size]

variable (env : Env)

def controlTransfer (s : State) (req : Request) : Reply × State :=
  (env.reply s.requests.length, { s with requests := s.requests ++ [req] })

def loadDescriptor (s : State) (descType : BitVec 8) (descIndex size offset : ℕ) : ℤ × State :=
  let (reply, s) := s.controlTransfer env (.getDescriptor descType descIndex size)
  (if reply.ok then 0 else errXfer, s.store offset (reply.count size) reply.data)

/-- The header goes into a variable of its own, so that no place in the buffer is involved. -/
def loadConfiguration (s : State) (confIndex : ℕ) : ℤ × State :=
  let (udc, s) := s.controlTransfer env (.getDescriptor usbConfigurationDescriptor confIndex usbDevConfigurationSize)
  if udc.ok = false then (errXfer, s)
  else if udc.data 1 ≠ usbConfigurationDescriptor then (errXfer, s)
  else
    let wTotalLength := (word udc.data 2).toNat
    let (rc, s) := s.loadDescriptor env usbConfigurationDescriptor confIndex wTotalLength usbDevDescriptorSize
    if rc = 0 then (wTotalLength, s) else (errXfer, s)

/-- The loop of `get_descriptor_ptr`, with the rounds left. The pointer counts the bytes scanned. -/
def scan (descriptorType : BitVec 8) (confSize : ℤ) : ℕ → ℕ → ℕ → State → Option (Option ℕ × State)
  | 0, _, _, _ => none
  | rounds + 1, index, ptr, s =>
    let s := s.reads confSize (some ptr) [1]
    if s.conf (ptr + 1) = descriptorType ∧ index = 0 then some (some ptr, s)
    else
      let index := if s.conf (ptr + 1) = descriptorType then index - 1 else index
      let s := s.reads confSize (some ptr) [0]
      let ptr := ptr + (s.conf ptr).toNat
      if ptr < confSize then scan descriptorType confSize rounds index ptr s else some (none, s)

/-- A search that has not ended after these rounds never ends. -/
def getDescriptorPtr (s : State) (descriptorType : BitVec 8) (index : ℕ) (confSize : ℤ) : Option (Option ℕ × State) :=
  s.scan descriptorType confSize (confSize.toNat + index + 1) index 0

def adopt (s : State) (confSize : ℤ) (confIfc : ℕ) : State :=
  let s := s.reads confSize (some confIfc) [5, 6, 7, 2]
  { s with udev := { s.udev with interface := interfaceAt s.conf confIfc, ifcNumber := s.conf (confIfc + 2) } }

def scanInterface (confSize : ℤ) (ifcI : ℕ) (s : State) : Option (Verdict (Option (ℕ × Driver)) × State) := do
  let (ptr, s) ← s.getDescriptorPtr usbInterfaceDescriptor ifcI confSize
  match ptr with
  | none => some (.stop none, s)
  | some confIfc =>
    let s := s.adopt confSize confIfc
    match usbLookupDriver env.drivers s.udev.interface with
    | some udd => some (.stop (some (confIfc, udd)), s)
    | none => some (.next, s)

/-- One round of the loop over the configurations. The number of interfaces is read in every round of the inner loop.
-/
def scanConfiguration (confI : ℕ) (s : State) : Option (Verdict Selection × State) := do
  let (confSize, s) := s.loadConfiguration env confI
  let s := s.reads confSize (some 0) [4]
  let (found, s) ← loop (scanInterface env confSize) (s.conf 4).toNat 0 s
  match found.join with
  | some (confIfc, udd) => some (.stop ⟨confSize, confIfc, udd⟩, s)
  | none => some (.next, s)

def bytesAt (s : State) : Option ℕ → ℕ → BitVec 8
  | some ptr => fun field => s.conf (ptr + field)
  | none => env.null

/-- One round of the loop over the endpoints. It does not stop the loop. -/
def recordEndpoint (confSize : ℤ) (epI : ℕ) (s : State) : Option (Verdict Empty × State) := do
  let (ptr, s) ← s.getDescriptorPtr usbEndpointDescriptor epI confSize
  let s := s.reads confSize ptr [2, 3, 4, 5, 6]
  let pipeI := epI + 1
  let udev := { s.udev with pipe := Function.update s.udev.pipe pipeI (pipeFor (s.bytesAt env ptr)) }
  some (.next, { s with udev }.access [.fill pipeI ptr])

end State

def controlPipe (maxPacketSize : BitVec 16) : UsbPipe := ⟨0, 0, 0, maxPacketSize, 0, false⟩

/-- The start of the call. The result of the transfer is not looked at. -/
def readDeviceDescriptor (env : Env) (mem : ℕ → BitVec 8) (udev : UsbDev) : State :=
  let maxPacketSize := if udev.usbSc = .ls then 8 else 64
  let udev := { udev with
    address := 0, opState := .noDriver, pipe := Function.update udev.pipe 0 (controlPipe maxPacketSize) }
  let s : State := ⟨mem, udev, [], [], none⟩
  let s := (s.loadDescriptor env usbDeviceDescriptor 0 usbDevDescriptorSize 0).2
  { s with
    udev := { s.udev with
      pipe := Function.update s.udev.pipe 0 (controlPipe ((s.mem 7).setWidth 16))
      vendor := word s.mem 8
      product := word s.mem 10
      configurationsNum := (s.mem 17).toNat } }

/-- The loops that look for a driver. -/
def selectDriver (env : Env) (mem : ℕ → BitVec 8) (udev : UsbDev) : Option (Option Selection × State) :=
  let s := readDeviceDescriptor env mem udev
  loop (State.scanConfiguration env) s.udev.configurationsNum 0 s

/-- Set up the pipes for the interface that was chosen. -/
def State.recordEndpoints (env : Env) (s : State) (selection : Selection) : Option State := do
  let s := { s with udev := { s.udev with udd := some selection.udd } }
  let s := s.reads selection.confSize (some selection.confIfc) [4]
  let bNumEndpoints := (s.conf (selection.confIfc + 4)).toNat
  let (_, s) ← loop (recordEndpoint env selection.confSize) bNumEndpoints 0 s
  some { s with udev := { s.udev with pipeCount := bNumEndpoints + 1 } }

/-- Give the device its address, configuration and interface, and start the driver. The results of the transfers are
not looked at. -/
def State.finish (env : Env) (s : State) (address : BitVec 32) (selection : Selection) : State :=
  let s := (s.controlTransfer env (.setAddress (address.setWidth 16))).2
  let s := { s with udev := { s.udev with address := address.setWidth 8 } }
  let s := s.reads selection.confSize (some 0) [5]
  let s := (s.controlTransfer env (.setConfiguration (s.conf 5))).2
  let s := s.reads selection.confSize (some selection.confIfc) [3, 2]
  let s := (s.controlTransfer env
    (.setInterface (s.conf (selection.confIfc + 3)) (s.conf (selection.confIfc + 2)))).2
  { s with udev := { s.udev with opState := .configured }, started := some selection.udd }

/-- What is returned, with the state afterwards, if the call returns. -/
def usbConfigureDevice (env : Env) (address : BitVec 32) (mem : ℕ → BitVec 8) (udev : UsbDev) : Option (ℤ × State) := do
  let (selection, s) ← selectDriver env mem udev
  match selection with
  | none => some (errNoDriver, s)
  | some selection =>
    let s ← s.recordEndpoints env selection
    some (0, s.finish env address selection)

end MicroOs.Enumeration
