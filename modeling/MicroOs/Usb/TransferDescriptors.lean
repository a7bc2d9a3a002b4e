import MicroOs.Library.BitMask
import MicroOs.Library.Run
import Mathlib.Data.List.Flatten
import Mathlib.Logic.Function.Iterate

/-! # Transfer descriptors

`uhci_read_write` splits a transfer into packets and builds a descriptor for each of them. The token of a descriptor
holds the packet's identifier, the address of the device, the endpoint, the toggle bit and the length minus one, each in
its own bits. The controller stores the length it has transferred in the same way.
-/

namespace MicroOs.Uhci

open BitVec List

def uhciLpTerminate : BitVec 32 := 1#32
def uhciTdPidIn : BitVec 8 := 0x69#8
def uhciTdPidOut : BitVec 8 := 0xe1#8
def uhciTdPidSetup : BitVec 8 := 0x2d#8
def uhciTdActiveBit : BitVec 32 := 1#32 <<< 23
def uhciTdDataToggleBit : BitVec 32 := 1#32 <<< 19
def uhciTdStatusMask : BitVec 32 := 0x00fe0000#32
def uhciTdActlen : BitVec 32 := 0x000007ff#32
def usbPipeInterrupt : BitVec 8 := 0x03#8

/-- `struct usb_pipe`, with what is known of its device. -/
structure Pipe where
  lowSpeed : Bool
  address : BitVec 8
  epAddress : BitVec 8
  attributes : BitVec 8
  maxPacketSize : BitVec 16
  toggleBit : Bool

/-- `struct uhci_transfer_descriptor` at an address that is a multiple of 16. -/
structure Td where
  place : BitVec 28
  lp : BitVec 32
  controlStatus : BitVec 32
  token : BitVec 32
  bufferPointer : BitVec 32

def flag (b : Bool) : BitVec 32 := if b then 1#32 else 0#32

def tdBuild (pipe : Pipe) (pid : BitVec 8) (size : ℕ) (data : BitVec 32) (place : BitVec 28) : Td where
  place
  lp := uhciLpTerminate
  controlStatus := flag pipe.lowSpeed <<< 26 ||| 3#32 <<< 27 ||| flag (pipe.attributes == usbPipeInterrupt) <<< 24 |||
    uhciTdActiveBit
  token := (BitVec.ofNat 32 size - 1#32) <<< 21 ||| flag pipe.toggleBit <<< 19 ||| pipe.epAddress.setWidth 32 <<< 15 |||
    pipe.address.setWidth 32 <<< 8 ||| pid.setWidth 32
  bufferPointer := data

/-- What a descriptor asks the controller for. -/
structure Packet where
  pid : BitVec 8
  device : BitVec 7
  endPoint : BitVec 4
  toggle : Bool
  length : ℕ
  buffer : BitVec 32

/-- The fields of a token; the length is stored minus one. -/
def Td.decode (td : Td) : Packet where
  pid := td.token.extractLsb' 0 8
  device := td.token.extractLsb' 8 7
  endPoint := td.token.extractLsb' 15 4
  toggle := td.token.getLsbD 19
  length := (td.token.extractLsb' 21 11 + 1#11).toNat
  buffer := td.bufferPointer

/-- The fields of a pipe have their own bits in a token. -/
structure Addressable (pipe : Pipe) : Prop where
  address : pipe.address.toNat < 2 ^ 7
  endPoint : pipe.epAddress.toNat < 2 ^ 4

variable {pipe : Pipe} {pid : BitVec 8} {size : ℕ} {data : BitVec 32} {place : BitVec 28}

theorem getLsbD_flag (b : Bool) (i : ℕ) : (flag b).getLsbD i = (b && decide (i = 0)) := by
  cases b <;> simp [flag]

theorem getLsbD_of_toNat_lt {w n i : ℕ} {x : BitVec w} (small : x.toNat < 2 ^ n) (high : n ≤ i) :
    x.getLsbD i = false := by
  exact Nat.testBit_lt_two_pow (small.trans_le (Nat.pow_le_pow_right Nat.two_pos high))

theorem getLsbD_token (addressable : Addressable pipe) (i : ℕ) : (tdBuild pipe pid size data place).token.getLsbD i =
    if i < 8 then pid.getLsbD i else if i < 15 then pipe.address.getLsbD (i - 8)
      else if i < 19 then pipe.epAddress.getLsbD (i - 15) else if i < 21 then pipe.toggleBit && decide (i = 19)
      else (BitVec.ofNat 32 size - 1#32).getLsbD (i - 21) && decide (i < 32) := by
  have address := fun k => @getLsbD_of_toNat_lt 8 7 k _ addressable.address
  have endPoint := fun k => @getLsbD_of_toNat_lt 8 4 k _ addressable.endPoint
  simp only [tdBuild, getLsbD_or, getLsbD_shiftLeft, getLsbD_flag]
  grind

theorem decode_tdBuild (addressable : Addressable pipe) (short : size < 2 ^ 11) :
    (tdBuild pipe pid size data place).decode =
      ⟨pid, pipe.address.setWidth 7, pipe.epAddress.setWidth 4, pipe.toggleBit, size, data⟩ := by
  have bits := @getLsbD_token pipe pid size data place addressable
  have length : (tdBuild pipe pid size data place).token.extractLsb' 21 11 =
      (BitVec.ofNat 32 size - 1#32).setWidth 11 := by
    ext i bound
    grind
  have counted : ((BitVec.ofNat 32 size - 1#32).setWidth 11 + 1#11).toNat = size := by
    simp only [toNat_add, toNat_setWidth, toNat_sub, toNat_ofNat]
    omega
  rw [Td.decode, length, counted, Packet.mk.injEq]
  refine ⟨?_, ?_, ?_, ?_, rfl, rfl⟩
  · ext i bound
    grind
  · ext i bound
    grind
  · ext i bound
    grind
  · rw [bits]
    simp

/-- `struct uhci_transfer_unit`, with its descriptors in the order of `td_list_head`. -/
structure Xfer where
  vertLp : BitVec 32 := uhciLpTerminate
  tds : List Td := []

/-- The last descriptor of the list leads to another one. -/
def linkLast (lp : BitVec 32) : List Td → List Td
  | [] => []
  | [td] => [{ td with lp }]
  | td :: next :: tds => td :: linkLast lp (next :: tds)

def Td.address (td : Td) : BitVec 32 := td.place ++ 0#4

def xferAddTdc (x : Xfer) (td : Td) : Xfer :=
  if x.vertLp = uhciLpTerminate then { vertLp := td.address, tds := x.tds ++ [td] }
  else { x with tds := linkLast td.address x.tds ++ [td] }

/-- The links of the controller, from a link pointer on. -/
def Chain : BitVec 32 → List Td → Prop
  | lp, [] => lp = uhciLpTerminate
  | lp, td :: tds => lp = td.address ∧ Chain td.lp tds

def xferCountBytes (tds : List Td) : ℕ :=
  (tds.map fun td => ((td.controlStatus + 1#32) &&& uhciTdActlen).toNat).sum

/-- The loop of `uhci_read_write`. It stops where there is no memory for a descriptor. -/
def buildTds (pid : BitVec 8) (alloc : ℕ → Option (BitVec 28)) :
    ℕ → Pipe → ℕ → BitVec 32 → Xfer → Pipe × Option Xfer
  | 0, pipe, _, _, _ => (pipe, none)
  | fuel + 1, pipe, remaining, data, x =>
    let packet := if pipe.maxPacketSize.toNat < remaining then pipe.maxPacketSize.toNat else remaining
    match alloc x.tds.length with
    | none => (pipe, none)
    | some place =>
      let x := xferAddTdc x (tdBuild pipe pid packet data place)
      let pipe := { pipe with toggleBit := !pipe.toggleBit }
      if 0 < remaining - packet then
        buildTds pid alloc fuel pipe (remaining - packet) (data + BitVec.ofNat 32 packet) x
      else (pipe, some x)

/-- The pipe and the transfer unit that `uhci_read_write` enqueues. -/
def uhciReadWrite (pipe : Pipe) (pid : BitVec 8) (size : ℕ) (data : BitVec 32) (alloc : ℕ → Option (BitVec 28)) :
    Pipe × Option Xfer :=
  let pipe := if pid = uhciTdPidSetup then { pipe with toggleBit := false } else pipe
  buildTds pid alloc (size + 1) pipe size data {}

def Packet.bytes (p : Packet) : List (BitVec 32) := (range p.length).map fun k => p.buffer + BitVec.ofNat 32 k

/-- The packets of a transfer: together they are the bytes of the buffer, in order. -/
structure Splits (pipe : Pipe) (pid : BitVec 8) (size : ℕ) (data : BitVec 32) (packets : List Packet) : Prop where
  bytes : packets.flatMap Packet.bytes = (range size).map fun k => data + BitVec.ofNat 32 k
  count : packets.length = (size - 1) / pipe.maxPacketSize.toNat + 1
  full : ∀ p ∈ packets.dropLast, p.length = pipe.maxPacketSize.toNat
  header : ∀ p ∈ packets, p.pid = pid ∧ p.device = pipe.address.setWidth 7 ∧ p.endPoint = pipe.epAddress.setWidth 4
  toggles : packets.map Packet.toggle = (range packets.length).map fun n => not^[n] pipe.toggleBit

/-- The controller has transferred all bytes that the descriptor asks for. -/
def Complete (td done : Td) : Prop :=
  done.token = td.token ∧ done.controlStatus.extractLsb' 0 11 = td.token.extractLsb' 21 11

variable {x : Xfer} {td : Td} {packets : List Packet} {alloc : ℕ → Option (BitVec 28)} {fuel : ℕ}

theorem map_linkLast (lp : BitVec 32) (tds : List Td) : (linkLast lp tds).map Td.decode = tds.map Td.decode := by
  induction tds with
  | nil => rfl
  | cons td tds ih =>
    cases tds with
    | nil => rfl
    | cons next tds => exact congrArg (td.decode :: ·) ih

theorem map_xferAddTdc (x : Xfer) (td : Td) :
    (xferAddTdc x td).tds.map Td.decode = x.tds.map Td.decode ++ [td.decode] := by
  rw [xferAddTdc]
  split
  · exact map_append
  · rw [map_append, map_linkLast]
    rfl

theorem length_xferAddTdc (x : Xfer) (td : Td) : (xferAddTdc x td).tds.length = x.tds.length + 1 := by
  simpa using congrArg length (map_xferAddTdc x td)

theorem Td.address_ne (td : Td) : td.address ≠ uhciLpTerminate := by
  intro same
  have bit := congrArg (getLsbD · 0) same
  rw [Td.address, getLsbD_append] at bit
  simp [uhciLpTerminate] at bit

theorem Chain.linkLast {lp : BitVec 32} {first : Td} {tds : List Td} (chain : Chain lp (first :: tds))
    (last : td.lp = uhciLpTerminate) : Chain lp (Uhci.linkLast td.address (first :: tds) ++ [td]) := by
  induction tds generalizing lp first with
  | nil => exact ⟨chain.1, rfl, last⟩
  | cons next tds ih => exact ⟨chain.1, ih chain.2⟩

theorem Chain.xferAddTdc (chain : Chain x.vertLp x.tds) (last : td.lp = uhciLpTerminate) :
    Chain (xferAddTdc x td).vertLp (xferAddTdc x td).tds := by
  rw [Uhci.xferAddTdc]
  cases tds : x.tds with
  | nil =>
    rw [tds] at chain
    rw [if_pos (show x.vertLp = uhciLpTerminate from chain)]
    exact ⟨rfl, last⟩
  | cons first rest =>
    rw [tds] at chain
    have other : x.vertLp ≠ uhciLpTerminate := by
      rw [chain.1]
      exact first.address_ne
    rw [if_neg other]
    exact chain.linkLast last

namespace Splits

theorem last (positive : 0 < pipe.maxPacketSize.toNat) (fits : size ≤ pipe.maxPacketSize.toNat) :
    Splits pipe pid size data
      [⟨pid, pipe.address.setWidth 7, pipe.epAddress.setWidth 4, pipe.toggleBit, size, data⟩] where
  bytes := flatMap_singleton ..
  count := by
    rw [Nat.div_eq_of_lt (by omega)]
    rfl
  full := by simp
  header := by simp
  toggles := rfl

theorem cons (positive : 0 < pipe.maxPacketSize.toNat) (more : pipe.maxPacketSize.toNat < size)
    (rest : Splits { pipe with toggleBit := !pipe.toggleBit } pid (size - pipe.maxPacketSize.toNat)
      (data + BitVec.ofNat 32 pipe.maxPacketSize.toNat) packets) :
    Splits pipe pid size data (⟨pid, pipe.address.setWidth 7, pipe.epAddress.setWidth 4, pipe.toggleBit,
      pipe.maxPacketSize.toNat, data⟩ :: packets) where
  bytes := by
    obtain ⟨left, rfl⟩ := Nat.exists_eq_add_of_le more.le
    have bytes := rest.bytes
    rw [Nat.add_sub_cancel_left] at bytes
    rw [flatMap_cons, bytes, range_add, map_append, map_map]
    congr 2
    funext k
    rw [Function.comp_apply, ofNat_add, add_assoc]
  count := by
    rw [length_cons, rest.count]
    rw [Nat.sub_right_comm, ← Nat.div_eq_sub_div positive (Nat.le_sub_one_of_lt more)]
  full := by
    have nonempty : packets ≠ [] := by
      rintro rfl
      cases rest.count
    rw [dropLast_cons_of_ne_nil nonempty]
    exact forall_mem_cons.2 ⟨rfl, rest.full⟩
  header := forall_mem_cons.2 ⟨⟨rfl, rfl, rfl⟩, rest.header⟩
  toggles := by
    rw [map_cons, rest.toggles, length_cons, range_succ_eq_map, map_cons, map_map]
    rfl

end Splits

/-- The loop builds all packets if there is memory for so many. -/
theorem buildTds_splits {left : ℕ} (addressable : Addressable pipe) (positive : 0 < pipe.maxPacketSize.toNat)
    (short : pipe.maxPacketSize.toNat < 2 ^ 11)
    (memory : ∀ n ≤ (left - 1) / pipe.maxPacketSize.toNat, alloc (x.tds.length + n) ≠ none) (enough : left < fuel)
    (chain : Chain x.vertLp x.tds) : ∃ x' packets,
      buildTds pid alloc fuel pipe left data x =
          ({ pipe with toggleBit := not^[packets.length] pipe.toggleBit }, some x') ∧
        x'.tds.map Td.decode = x.tds.map Td.decode ++ packets ∧ Chain x'.vertLp x'.tds ∧
        Splits pipe pid left data packets := by
  induction fuel generalizing pipe left data x with
  | zero => cases enough
  | succ fuel ih =>
    obtain ⟨place, found⟩ := Option.ne_none_iff_exists'.1 (memory 0 (Nat.zero_le _))
    rw [Nat.add_zero] at found
    simp only [buildTds, found]
    by_cases more : pipe.maxPacketSize.toNat < left
    · rw [if_pos more, if_pos (Nat.sub_pos_of_lt more)]
      rw [Nat.div_eq_sub_div positive (Nat.le_sub_one_of_lt more), Nat.sub_right_comm] at memory
      have later (td : Td) (n : ℕ) (le : n ≤ (left - pipe.maxPacketSize.toNat - 1) / pipe.maxPacketSize.toNat) :
          alloc ((xferAddTdc x td).tds.length + n) ≠ none := by
        rw [length_xferAddTdc, Nat.add_assoc, Nat.add_comm 1]
        exact memory (n + 1) (Nat.succ_le_succ le)
      obtain ⟨x', packets, ran, decoded, chain', splits⟩ := @ih { pipe with toggleBit := !pipe.toggleBit }
        (data + BitVec.ofNat 32 pipe.maxPacketSize.toNat)
        (xferAddTdc x (tdBuild pipe pid pipe.maxPacketSize.toNat data place)) (left - pipe.maxPacketSize.toNat)
        ⟨addressable.1, addressable.2⟩ positive short (later _) (by omega) (chain.xferAddTdc rfl)
      refine ⟨x', _ :: packets, ran, ?_, chain', splits.cons positive more⟩
      rw [decoded, map_xferAddTdc, decode_tdBuild addressable short, List.append_assoc]
      rfl
    · rw [if_neg more, Nat.sub_self]
      refine ⟨_, [_], rfl, ?_, chain.xferAddTdc rfl, .last positive (not_lt.1 more)⟩
      rw [map_xferAddTdc, decode_tdBuild addressable (by omega)]

theorem countBytes_complete {done : Td} (complete : Complete td done) :
    ((done.controlStatus + 1#32) &&& uhciTdActlen).toNat = td.decode.length := by
  have mask : uhciTdActlen.toNat = 2 ^ 11 - 1 := rfl
  rw [toNat_and, mask, Nat.and_two_pow_sub_one_eq_mod, Td.decode, ← complete.2]
  simp only [toNat_add, extractLsb'_toNat, toNat_ofNat]
  omega

theorem xferCountBytes_complete {tds done : List Td} (complete : List.Forall₂ Complete tds done) :
    xferCountBytes done = (tds.map fun td => td.decode.length).sum := by
  rw [xferCountBytes]
  induction complete with
  | nil => rfl
  | cons first _ ih => rw [map_cons, map_cons, sum_cons, sum_cons, countBytes_complete first, ih]

theorem Splits.sum_length (splits : Splits pipe pid size data packets) : (packets.map Packet.length).sum = size := by
  have same := congrArg length splits.bytes
  rw [length_flatMap, length_map, length_range] at same
  rw [← same]
  congr 2
  funext p
  rw [Packet.bytes, length_map, length_range]

/-- The transfer of `uhci_read_write` is split into packets, and if all are complete, the bytes are counted right. -/
theorem readWrite_splits (addressable : Addressable pipe) (positive : 1 ≤ pipe.maxPacketSize.toNat)
    (short : pipe.maxPacketSize.toNat ≤ 1023) (pid : BitVec 8) (size : ℕ) (data : BitVec 32)
    (memory : ∀ n ≤ (size - 1) / pipe.maxPacketSize.toNat, alloc n ≠ none) :
    let start := if pid = uhciTdPidSetup then { pipe with toggleBit := false } else pipe
    ∃ x, uhciReadWrite pipe pid size data alloc =
        ({ start with toggleBit := not^[x.tds.length] start.toggleBit }, some x) ∧
      Chain x.vertLp x.tds ∧ Splits start pid size data (x.tds.map Td.decode) ∧
      ∀ done, List.Forall₂ Complete x.tds done → xferCountBytes done = size := by
  intro start
  have setup : Addressable start ∧ start.maxPacketSize = pipe.maxPacketSize := by
    rw [show start = if pid = uhciTdPidSetup then { pipe with toggleBit := false } else pipe from rfl]
    split
    · exact ⟨⟨addressable.1, addressable.2⟩, rfl⟩
    · exact ⟨addressable, rfl⟩
  obtain ⟨x, packets, ran, decoded, chain, splits⟩ := @buildTds_splits start pid data {} alloc (size + 1) size setup.1
    (by rwa [setup.2]) (by rw [setup.2]; omega) (by simpa [setup.2] using memory) (Nat.lt_succ_self size) rfl
  subst decoded
  rw [length_map] at ran
  refine ⟨x, ran, chain, splits, fun done complete => ?_⟩
  have sum := splits.sum_length
  rw [map_map] at sum
  rw [xferCountBytes_complete complete]
  exact sum

/-- A transfer of three packets. -/
theorem readWrite_splits_three :
    ∃ x : Xfer, Splits ⟨false, 5#8, 1#8, 2#8, 64#16, true⟩ uhciTdPidIn 130 0x30000#32 (x.tds.map Td.decode) ∧
      x.tds.length = 3 := by
  obtain ⟨x, -, -, splits, -⟩ := @readWrite_splits ⟨false, 5#8, 1#8, 2#8, 64#16, true⟩
    (fun n => some (BitVec.ofNat 28 n)) ⟨by decide, by decide⟩ (by decide) (by decide)
    uhciTdPidIn 130 0x30000#32 fun _ _ => Option.some_ne_none _
  refine ⟨x, splits, ?_⟩
  have count := splits.count
  rwa [length_map] at count

end MicroOs.Uhci
