import MicroOs.Paging.Pager

/-! # The image builder and its readers

`createimage` lays a boot block, a kernel and processes out in an image file, one after another and each padded to
whole sectors. With `--vm` the boot block gets the size of the kernel in sectors, and the sector behind the kernel
holds a directory with the place of each process. The kernel reads the directory back and loads the pages of a process
from its sectors.

The builder runs on a 64-bit host. Its byte counts are numbers here, and `int` values and the fields of ELF headers
are words of 32 bits. A run that stops at an assertion or with an error message has no result.
-/

namespace MicroOs.Disk

open Paging

abbrev Byte := BitVec 8

structure InputFile where
  data : Memory
  size : ℕ

namespace InputFile

/-- The byte that `fgetc` gives. At the end of the file this is `EOF` cut to a byte. -/
def fgetc (fp : InputFile) (position : ℕ) : Byte := if position < fp.size then fp.data position else 0xff

def readHalf (fp : InputFile) (position : ℕ) : BitVec 16 := fp.data (position + 1) ++ fp.data position

end InputFile

/-- The fields of the ELF header that are used. -/
structure Ehdr where
  phoff : BitVec 32
  phentsize : BitVec 16
  phnum : BitVec 16

/-- The fields of a program header that are used. -/
structure Phdr where
  type : BitVec 32
  offset : BitVec 32
  vaddr : BitVec 32
  filesz : BitVec 32
  memsz : BitVec 32
  flags : BitVec 32
deriving DecidableEq

def ehdrSize : ℕ := 52
def phdrSize : ℕ := 32
def ptLoad : BitVec 32 := 1
def pfX : BitVec 32 := 1

def readEhdr (fp : InputFile) : Option Ehdr :=
  if fp.size < ehdrSize then none
  else if fp.data 1 = 0x45 ∧ fp.data 2 = 0x4c ∧ fp.data 3 = 0x46 then
    some { phoff := fp.data.readWord 28, phentsize := fp.readHalf 42, phnum := fp.readHalf 44 }
  else none

/-- Where a program header lies, in unsigned arithmetic. -/
def phdrPosition (ehdr : Ehdr) (ph : ℕ) : ℕ := (ehdr.phoff + BitVec.ofNat 32 (ph * ehdr.phentsize.toNat)).toNat

def readPhdr (fp : InputFile) (ehdr : Ehdr) (ph : ℕ) : Option Phdr :=
  let position := phdrPosition ehdr ph
  if fp.size < position + phdrSize then none
  else some
    { type := fp.data.readWord position
      offset := fp.data.readWord (position + 4)
      vaddr := fp.data.readWord (position + 8)
      filesz := fp.data.readWord (position + 16)
      memsz := fp.data.readWord (position + 20)
      flags := fp.data.readWord (position + 24) }

structure Directory where
  location : BitVec 32 := 0
  size : BitVec 32 := 0
deriving DecidableEq

/-- `struct image_t`, with the contents and the length of the image file. -/
structure Image where
  img : Memory := fun _ => 0
  length : ℕ := 0
  nbytes : ℕ := 0
  offset : BitVec 32 := 0
  pdLoc : ℕ := 0
  pdLim : ℕ := 0
  dir : Directory := {}

def kernelPaddr : BitVec 32 := 0x8000

def alignPageDown (vaddr : BitVec 32) : BitVec 32 := vaddr &&& 0xfffff000

namespace Image

variable (im : Image)

/-- Put characters at the end of the file and count them. -/
def put (count : ℕ) (source : Memory) : Image :=
  { im with
    img := im.img.blit im.length count source
    length := im.length + count
    nbytes := im.nbytes + count }

/-- Put zeros until the count is `limit`. -/
def padTo (limit : ℕ) : Image := im.put (limit - im.nbytes) fun _ => 0

def processStart (vm : Bool) (vaddr : BitVec 32) : Option Image :=
  if im.nbytes % sectorSize ≠ 0 then none
  else
    let im := { im with dir.location := BitVec.ofNat 32 (im.nbytes / sectorSize) }
    if im.nbytes = 0 then
      if vaddr = 0 then some { im with offset := 0 } else none
    else if vm = false then some { im with offset := -kernelPaddr + BitVec.ofNat 32 sectorSize }
    else some { im with offset := BitVec.ofNat 32 im.nbytes - alignPageDown vaddr }

/-- The next multiple of the sector size. -/
def wholeSectors (nbytes : ℕ) : ℕ := (nbytes + (sectorSize - 1)) / sectorSize * sectorSize

def processEnd : Image :=
  let im := im.padTo (wholeSectors im.nbytes)
  { im with dir.size := BitVec.ofNat 32 (im.nbytes / sectorSize) - im.dir.location }

/-- The loops decrease `p_memsz` together with `p_filesz` and put zeros for the rest of it. -/
def writeSegment (fp : InputFile) (phdr : Phdr) : Option Image :=
  if phdr.memsz = 0 then some im
  else
    let phyaddr := (phdr.vaddr + im.offset).toNat
    if phyaddr < im.nbytes then none
    else
      let im := im.padTo phyaddr
      let im := im.put phdr.filesz.toNat fun i => fp.fgetc (phdr.offset.toNat + i)
      some (im.put (phdr.memsz - phdr.filesz).toNat fun _ => 0)

/-- Segments that are not loaded or not executable are left out. -/
def addSegment (fp : InputFile) (phdr : Phdr) : Option Image :=
  if phdr.type ≠ ptLoad ∨ phdr.flags &&& pfX = 0 then some im else im.writeSegment fp phdr

/-- One round of the loop over the program headers. -/
def addHeader (vm : Bool) (fp : InputFile) (ehdr : Ehdr) (ph : ℕ) : Option Image :=
  (readPhdr fp ehdr ph).bind fun phdr =>
    (if ph = 0 then im.processStart vm phdr.vaddr else some im).bind fun im => im.addSegment fp phdr

def addFile (vm : Bool) (fp : InputFile) : Option Image :=
  (readEhdr fp).bind fun ehdr =>
    ((List.range ehdr.phnum.toNat).foldlM (fun im ph => addHeader im vm fp ehdr ph) im).map processEnd

/-- Write over what the file has at a position. -/
def overwrite (position count : ℕ) (source : Memory) : Image :=
  { im with img := im.img.blit position count source, length := max im.length (position + count) }

def osSizeLoc : ℕ := 2

def writeOsSize : Option Image :=
  if im.nbytes % sectorSize ≠ 0 then none
  else
    let osSize : BitVec 16 := BitVec.ofNat 16 (im.nbytes / sectorSize) - 1
    some (im.overwrite osSizeLoc 2 fun i => osSize.extractLsb' (8 * i) 8)

def reserveProcessDir : Option Image :=
  if im.nbytes % sectorSize ≠ 0 then none
  else some { im.put sectorSize (fun _ => 0) with pdLoc := im.nbytes, pdLim := im.nbytes + sectorSize }

def entryBytes (dir : Directory) : Memory :=
  Memory.writeWord (Memory.writeWord (fun _ => 0) 0 dir.location) 4 dir.size

def addProcessToDir : Option Image :=
  if im.pdLim ≤ im.pdLoc + 8 then none
  else some { im.overwrite im.pdLoc 8 (entryBytes im.dir) with pdLoc := im.pdLoc + 8 }

def addProcess (vm : Bool) (fp : InputFile) : Option Image :=
  (im.addFile vm fp).bind fun im => if vm then im.addProcessToDir else some im

end Image

/-- The boot block and the kernel, with what follows them. -/
def createKernel (vm : Bool) (bootblock kernel : InputFile) : Option Image :=
  (({} : Image).addFile vm bootblock).bind fun im =>
    (im.addFile vm kernel).bind fun im =>
      if vm then im.writeOsSize.bind Image.reserveProcessDir else some im

def createImage (vm : Bool) (bootblock kernel : InputFile) (processes : List InputFile) : Option Image :=
  (createKernel vm bootblock kernel).bind fun im =>
    (processes.foldlM (fun im fp => Image.addProcess im vm fp) im).bind fun im =>
      (if vm then some im else im.writeOsSize).bind fun im =>
        if im.nbytes % sectorSize = 0 then some im else none

/-- What `readdir` copies out when the device answers. -/
def readdir (disk : BitVec 32 → Memory) : Memory :=
  let osSize : BitVec 16 := disk 0 (Image.osSizeLoc + 1) ++ disk 0 Image.osSizeLoc
  disk (osSize.setWidth 32 + 1)

def entryAt (buf : Memory) (n : ℕ) : Directory where
  location := buf.readWord (8 * n)
  size := buf.readWord (8 * n + 4)

/-- The entries that the shell lists: those before the first one without a location. -/
def listFrom (buf : Memory) : ℕ → ℕ → List Directory
  | 0, _ => []
  | fuel + 1, p => if (entryAt buf p).location = 0 then [] else entryAt buf p :: listFrom buf fuel (p + 1)

/-- The processes of a directory, which has room for 64 entries. -/
def listProcesses (buf : Memory) : List Directory := listFrom buf 64 0

/-- What `loadproc` keeps of a directory entry. -/
def loadproc (dir : Directory) : Pcb := { swapLoc := dir.location, swapSize := dir.size }

/-- The byte that `load_page_from_disk` puts at a virtual address. -/
def loadedByte (disk : BitVec 32 → Memory) (pcb : Pcb) (vaddr : BitVec 32) : Byte :=
  readBuffer disk (diskLoc pcb vaddr) (blockCount pcb vaddr) (vaddr.toNat % pageSize)

end MicroOs.Disk
