import MicroOs.Paging.Eviction
import MicroOs.Usb.Scsi
import MicroOs.Usb.Toggle

/-! # Commands on the wire

`scsi_read_write` puts a transfer of blocks into a command block with the numbers in network byte order, and
`usb_msd_read_write` wraps it for the device. The device reads both as the two standards lay them out.
-/

namespace MicroOs.MassStorage

open Scsi Paging

def bytes32 (x : BitVec 32) : List (BitVec 8) :=
  [x.extractLsb' 0 8, x.extractLsb' 8 8, x.extractLsb' 16 8, x.extractLsb' 24 8]

def bytes16 (x : BitVec 16) : List (BitVec 8) := [x.extractLsb' 0 8, x.extractLsb' 8 8]

def htonl (x : BitVec 32) : BitVec 32 := ntohl x

def htons (x : BitVec 16) : BitVec 16 := x.extractLsb' 0 8 ++ x.extractLsb' 8 8

/-- `struct command_descriptor_block10` as `scsi_read_write` fills it in. -/
def commandDescriptorBlock10 (dir : Direction) (blockStart blockCount : BitVec 32) : List (BitVec 8) :=
  [if dir = .read then 0x28#8 else 0x2a#8, 0] ++ bytes32 (htonl blockStart) ++ [0] ++
    bytes16 (htons (blockCount.setWidth 16)) ++ [0]

def cbwSignature : BitVec 32 := 0x43425355#32

/-- `struct command_block_wrapper` as `usb_msd_read_write` fills it in. -/
def commandBlockWrapper (tag : BitVec 32) (dir : Direction) (cbData : List (BitVec 8)) (length : BitVec 32) :
    List (BitVec 8) :=
  bytes32 cbwSignature ++ bytes32 tag ++ bytes32 length ++
    [if dir = .read then 0x80#8 else 0#8, 0, BitVec.ofNat 8 cbData.length] ++ cbData ++
    List.replicate (cbMaxSize - cbData.length) 0

/-- The bytes that `scsi_read_write` has sent to the device. -/
def scsiReadWrite (tag : BitVec 32) (dir : Direction) (blockStart blockCount blockSize : BitVec 32) : List (BitVec 8) :=
  commandBlockWrapper tag dir (commandDescriptorBlock10 dir blockStart blockCount) (blockCount * blockSize)

/-- A command to read or write blocks, as the device understands it. -/
structure BlockCommand where
  tag : BitVec 32
  dir : Direction
  lba : BitVec 32
  blocks : BitVec 16
  length : BitVec 32
deriving DecidableEq

def little32 (bytes : List (BitVec 8)) (i : ℕ) : BitVec 32 :=
  bytes.getD (i + 3) 0 ++ bytes.getD (i + 2) 0 ++ bytes.getD (i + 1) 0 ++ bytes.getD i 0

def big32 (bytes : List (BitVec 8)) (i : ℕ) : BitVec 32 :=
  bytes.getD i 0 ++ bytes.getD (i + 1) 0 ++ bytes.getD (i + 2) 0 ++ bytes.getD (i + 3) 0

/-- The device takes a wrapper of the right size with a command block of ten bytes, whose operation agrees with the
flags. -/
def receive (bytes : List (BitVec 8)) : Option BlockCommand :=
  let command (dir : Direction) : BlockCommand :=
    ⟨little32 bytes 4, dir, big32 bytes 17, bytes.getD 22 0 ++ bytes.getD 23 0, little32 bytes 8⟩
  if bytes.length ≠ cbwSize ∨ little32 bytes 0 ≠ cbwSignature ∨ bytes.getD 14 0 ≠ 10#8 then none
  else if bytes.getD 12 0 = 0x80#8 ∧ bytes.getD 15 0 = 0x28#8 then some (command .read)
  else if bytes.getD 12 0 = 0#8 ∧ bytes.getD 15 0 = 0x2a#8 then some (command .write)
  else none

variable (tag : BitVec 32) (dir : Direction) (start count blockSize : BitVec 32)

theorem word_eq (x : BitVec 32) :
    x.extractLsb' 24 8 ++ x.extractLsb' 16 8 ++ x.extractLsb' 8 8 ++ x.extractLsb' 0 8 = x := by
  refine BitVec.eq_of_getLsbD_eq fun i bound => ?_
  grind

theorem bytes_htonl (x : BitVec 32) : (htonl x).extractLsb' 0 8 ++ (htonl x).extractLsb' 8 8 ++
    (htonl x).extractLsb' 16 8 ++ (htonl x).extractLsb' 24 8 = x := by
  refine BitVec.eq_of_getLsbD_eq fun i bound => ?_
  simp only [htonl, ntohl, BitVec.getLsbD_append, BitVec.getLsbD_extractLsb']
  grind

theorem bytes_htons (x : BitVec 16) : (htons x).extractLsb' 0 8 ++ (htons x).extractLsb' 8 8 = x := by
  refine BitVec.eq_of_getLsbD_eq fun i bound => ?_
  simp only [htons, BitVec.getLsbD_append, BitVec.getLsbD_extractLsb']
  grind

theorem receive_scsiReadWrite : receive (scsiReadWrite tag dir start count blockSize) =
    some ⟨tag, dir, start, count.setWidth 16, count * blockSize⟩ := by
  cases dir with
  | read | write =>
    simp only [receive, scsiReadWrite, commandBlockWrapper, commandDescriptorBlock10, bytes32, bytes16, little32, big32]
    simp [cbwSize, cbMaxSize, word_eq, bytes_htonl, bytes_htons]

/-- The device is asked for the blocks that the caller of `scsi_read_write` means, and all of their bytes. -/
def Asked : Prop := ∃ command, receive (scsiReadWrite tag dir start count blockSize) = some command ∧
  command.dir = dir ∧ command.lba = start ∧ command.blocks.toNat = count.toNat ∧
    command.length.toNat = count.toNat * blockSize.toNat

theorem asked_of_lt (few : count.toNat < 2 ^ 16) (short : count.toNat * blockSize.toNat < 2 ^ 32) :
    Asked tag dir start count blockSize := by
  refine ⟨_, receive_scsiReadWrite .., rfl, rfl, ?_, ?_⟩
  · rw [BitVec.toNat_setWidth, Nat.mod_eq_of_lt few]
  · rw [BitVec.toNat_mul, Nat.mod_eq_of_lt short]

/-- A command reaches the device as meant exactly if its number of blocks has 16 bits and its number of bytes 32. -/
theorem asked_iff : Asked tag dir start count blockSize ↔
    count.toNat < 2 ^ 16 ∧ count.toNat * blockSize.toNat < 2 ^ 32 := by
  refine ⟨?_, fun ⟨few, short⟩ => asked_of_lt tag dir start count blockSize few short⟩
  rintro ⟨command, received, -, -, blocks, length⟩
  rw [receive_scsiReadWrite] at received
  cases received
  exact ⟨blocks ▸ BitVec.isLt _, length ▸ BitVec.isLt _⟩

/-- So does every transfer of a page, whatever the process and the address are. -/
theorem page_transfer_asked (pcb : Pcb) (vaddr : BitVec 32) :
    Asked tag dir (diskLoc pcb vaddr) (blockCount pcb vaddr) (BitVec.ofNat 32 sectorSize) := by
  have few := blockCount_le pcb vaddr
  refine asked_of_lt _ _ _ _ _ (by omega) ?_
  simp only [sectorSize, BitVec.toNat_ofNat]
  omega

end MicroOs.MassStorage
