import MicroOs.Paging.Pager

/-! # Address spaces, demand loading and the processor's accesses

`init_memory`, `setup_process_vmem` and `page_fault_handler`, followed by the two things the processor does
with the tables by itself: it refuses an address whose walk meets an entry that is not present, and it sets
the accessed and dirty bits of the entries it goes through.
-/

namespace MicroOs.Paging

open BitMask Memory

/-- The page addresses of a `for` loop from `low` up to `high`. -/
def pagesFrom (low high : ℕ) : List ℕ :=
  (List.range ((high - low + (pageSize - 1)) / pageSize)).map fun i => low + pageSize * i

def kernelMode : BitVec 32 := peP ||| peRw
def userMode : BitVec 32 := peP ||| peRw ||| peUs

/-- Processes keep the kernel's part of their address space in one page table. -/
def processesShareKernelPageTable : Bool := true

def identityMapPage (pdir ptable : ℕ) (fillTable : Bool) (mem : Memory) (paddr : ℕ) : Memory :=
  let address := BitVec.ofNat 32 paddr
  let mem := if fillTable then tableMapPage mem ptable address address kernelMode else mem
  dirInsTable mem pdir address ptable kernelMode

/-- Identity map the kernel region, the paging area and the video memory. -/
def identityMapKernel (mem : Memory) (pdir ptable : ℕ) (fillTable : Bool) (vgaMode : BitVec 32) : Memory :=
  let mem := (pagesFrom 0 kernelSize).foldl (identityMapPage pdir ptable fillTable) mem
  let mem := (pagesFrom pagingAreaMinPaddr pagingAreaMaxPaddr).foldl (identityMapPage pdir ptable fillTable) mem
  let mem := dirInsTable mem pdir 0#32 ptable kernelMode
  let vga := BitVec.ofNat 32 vgaTextPaddr
  let mem := if fillTable then tableMapPage mem ptable vga vga vgaMode else mem
  dirInsTable mem pdir vga ptable vgaMode

def imageBytes (pcb : Pcb) : BitVec 32 := pcb.swapSize * BitVec.ofNat 32 sectorSize

/-- Enter the image pages, not present, with their place on the disk in the place of a frame. -/
def mapImagePages (mem : Memory) (pcb : Pcb) (ptable : ℕ) : Memory :=
  (pagesFrom 0 (imageBytes pcb).toNat).foldl (fun mem offset =>
    tableMapPage mem ptable (processVaddr + BitVec.ofNat 32 offset)
      (pcb.swapLoc * BitVec.ofNat 32 sectorSize + BitVec.ofNat 32 offset) (peRw ||| peUs)) mem

def config : Config := {}

namespace Kernel

variable (s : Kernel)

/-- Enter the shared kernel page table into the directory of a process; the first one also fills it. -/
def userSetupKernelVmem (pdir : ℕ) (firstTime : Bool) : Kernel :=
  { s with mem := identityMapKernel s.mem pdir s.userKernelPtable firstTime (userMode ||| pePcd) }

def setupKernelVmemCommon (cfg : Config) (owner : PcbPtr) (pdir : ℕ) (isUser : Bool) : Outcome Kernel := do
  let (kernelPtable, s) ← s.allocatePage cfg
  let s ← s.insertPageFrameInfo kernelPtable (BitVec.ofNat 32 kernelPtable) owner peInfoPinned
  let mode := (if isUser then userMode else kernelMode) ||| pePcd
  pure { s with mem := identityMapKernel s.mem pdir kernelPtable true mode }

def setupKernelVmem (cfg : Config) : Outcome Kernel := do
  let infoMode := peInfoPinned ||| peInfoKernelDummy
  let (pdir, s) ← s.allocatePage cfg
  let s := { s with kernelPdir := pdir }
  let s ← s.insertPageFrameInfo pdir (BitVec.ofNat 32 pdir) .dummyKernel infoMode
  let s ← s.setupKernelVmemCommon cfg .dummyKernel pdir false
  if processesShareKernelPageTable then
    let (ptable, s) ← s.allocatePage cfg
    let s := { s with userKernelPtable := ptable }
    s.insertPageFrameInfo ptable (BitVec.ofNat 32 ptable) .dummyKernel infoMode
  else pure s

/-- Called once by `kernel_main`. -/
def initMemory (cfg : Config) : Outcome Kernel :=
  { s.initializePageFrameInfos with fifoQueue := {} }.setupKernelVmem cfg

/-- The kernel before `init_memory`: static data is cleared, memory and disk hold anything. -/
def boot (mem : Memory) (disk : BitVec 32 → Memory) (scsi : ℕ → ScsiResult) (ticks : ℕ → BitVec 64) : Kernel :=
  { mem, disk, scsi, ticks }

/-- Enter the disk address of each image page. The loop variable is a `uint32_t`: a limit in the last page of the
address space is never reached. -/
def mapImage (pcb : Pcb) (ptable : ℕ) : Outcome Kernel :=
  if 2 ^ 32 - pageSize < (imageBytes pcb).toNat then .error .diverges
  else .ok { s with mem := mapImagePages s.mem pcb ptable }

def mapStack (cfg : Config) (p ptable : ℕ) : Outcome Kernel := do
  let (stackPage, s) ← s.allocatePage cfg
  let s ← s.insertPageFrameInfo stackPage processStackVaddr (.pcb p) (peInfoUserMode ||| peInfoPinned ||| peInfoStack)
  pure { s with mem := tableMapPage s.mem ptable processStackVaddr (BitVec.ofNat 32 stackPage) userMode }

/-- Allocate the page directory and enter the kernel's pages into it. -/
def setupDirectory (cfg : Config) (p : ℕ) : Outcome (ℕ × Kernel) := do
  let (pdir, s) ← s.allocatePage cfg
  let s ← s.insertPageFrameInfo pdir (BitVec.ofNat 32 pdir) (.pcb p) (peInfoUserMode ||| peInfoPinned)
  let firstTime := s.firstProcess
  let s := if firstTime then { s with firstProcess := false, firstProcessPid := (s.pcb p).pid } else s
  let s := if processesShareKernelPageTable then s.userSetupKernelVmem pdir firstTime else s
  let s ← if !processesShareKernelPageTable then s.setupKernelVmemCommon cfg (.pcb p) pdir true else pure s
  pure (pdir, s)

/-- Allocate the page table and enter it for the image. -/
def setupTable (cfg : Config) (p pdir : ℕ) : Outcome (ℕ × Kernel) := do
  let (ptable, s) ← s.allocatePage cfg
  let s := { s with mem := dirInsTable s.mem pdir processVaddr ptable userMode }
  let s ← s.insertPageFrameInfo ptable (BitVec.ofNat 32 ptable) (.pcb p) (peInfoUserMode ||| peInfoPinned)
  pure (ptable, s)

/-- Set up a page directory and page table for the process. -/
def setupProcessVmem (cfg : Config) (p : ℕ) : Outcome Kernel := do
  if (s.pcb p).isThread then
    pure { s with pcb := Function.update s.pcb p { s.pcb p with pageDirectory := s.kernelPdir } }
  else
    let (pdir, s) ← s.setupDirectory cfg p
    let (ptable, s) ← s.setupTable cfg p pdir
    let s ← s.mapImage (s.pcb p) ptable
    let s := { s with mem := dirInsTable s.mem pdir processStackVaddr ptable userMode }
    let s ← s.mapStack cfg p ptable
    pure { s with pcb := Function.update s.pcb p { s.pcb p with pageDirectory := pdir } }

/-- Take the next entry of the `pcb` table, as `create_thread` and `create_process` do, and set it up. No entry is
taken twice before all have been used. -/
def createPcb (cfg : Config) (isThread : Bool) (swapLoc swapSize : BitVec 32) : Outcome Kernel :=
  let p := s.pcbCount
  { s with
    pcbCount := p + 1
    pcb := Function.update s.pcb p { pid := BitVec.ofNat 32 p, isThread, swapLoc, swapSize } }.setupProcessVmem cfg p

def findOrAddPageTable (cfg : Config) (p : ℕ) (vaddr infoMode : BitVec 32) : Outcome (ℕ × Kernel) :=
  let pdir := (s.pcb p).pageDirectory
  match getPageTable s.mem vaddr pdir with
  | some table => .ok (table, s)
  | none => do
    let (table, s) ← s.allocatePage cfg
    let s ← s.insertPageFrameInfo table vaddr (.pcb p) infoMode
    pure (table, { s with mem := dirInsTable s.mem pdir vaddr table userMode })

/-- Queue, record and map a page that has been read into its frame. -/
def installPage (cfg : Config) (p : ℕ) (vaddr infoMode : BitVec 32) (frameref table : ℕ) : Outcome Kernel := do
  let pdir := (s.pcb p).pageDirectory
  let s := if !hasFlag infoMode peInfoPinned && cfg.evictionStrategy = .fifo then s.fifoEnqueueInfo frameref else s
  let s ← s.insertPageFrameInfo frameref vaddr (.pcb p) infoMode
  if inKernelArea table then .error .wild
  let mem := tableMapPage s.mem table vaddr (BitVec.ofNat 32 frameref) userMode
  pure ({ s with mem := dirInsTable mem pdir vaddr table userMode }.record
    (.loaded (calculateInfoIndex frameref) p (pageBase vaddr)))

def loadInfoMode (cfg : Config) (p : ℕ) : BitVec 32 :=
  if (s.pcb p).pid = s.firstProcessPid ∧ cfg.pinShell then peInfoUserMode ||| peInfoPinned else peInfoUserMode

def loadPageFromDisk (cfg : Config) (vaddr : BitVec 32) (p : ℕ) : Outcome (Bool × Kernel) := do
  let pcb := s.pcb p
  if pcb.isThread then .error .abortk
  let infoMode := s.loadInfoMode cfg p
  let (frameref, s) ← s.allocatePage cfg
  let (success, s) := s.diskLoader (diskLoc pcb vaddr) (blockCount pcb vaddr) frameref
  let (table, s) ← s.findOrAddPageTable cfg p vaddr infoMode
  if !success then pure (false, s)
  else
    let s ← s.installPage cfg p vaddr infoMode frameref table
    pure (true, s)

/-- Handle page fault. Bit 0 of the error code is set for a protection violation. -/
def pageFaultHandler (cfg : Config) (p : ℕ) (vaddr errorCode : BitVec 32) : Outcome Kernel := do
  if hasFlag errorCode 1#32 then .error .abortk
  let (success, s) ← s.loadPageFromDisk cfg vaddr p
  -- a failed load ends in `todo_abort`
  if success then pure s else .error .abortk

/-- The walk for an address meets an entry that is not present. -/
def NotPresent (p : ℕ) (vaddr : BitVec 32) : Prop :=
  let pdir := (s.pcb p).pageDirectory
  hasFlag (pde s.mem pdir vaddr) peP = false ∨ hasFlag (pte s.mem pdir vaddr) peP = false

instance (p : ℕ) (vaddr : BitVec 32) : Decidable (s.NotPresent p vaddr) := by
  unfold NotPresent; infer_instance

/-- Both entries for an address have the given flag. -/
def bothHave (p : ℕ) (vaddr flag : BitVec 32) : Bool :=
  hasFlag (pde s.mem (s.pcb p).pageDirectory vaddr) flag && hasFlag (pte s.mem (s.pcb p).pageDirectory vaddr) flag

def userPage (p : ℕ) (vaddr : BitVec 32) : Option ℕ :=
  if s.bothHave p vaddr peP && s.bothHave p vaddr peUs then
    some (entryBase (pte s.mem (s.pcb p).pageDirectory vaddr))
  else none

/-- Set the accessed bit in the directory entry, and the given bits in the table entry. -/
def touch (p : ℕ) (vaddr bits : BitVec 32) : Kernel :=
  let pdir := (s.pcb p).pageDirectory
  let mem := s.mem.writeWord (pdir + 4 * getDirectoryIndex vaddr) (pde s.mem pdir vaddr ||| peA)
  { s with mem := mem.writeWord (pteAddr mem pdir vaddr) (pte mem pdir vaddr ||| bits) }

def userRead (p : ℕ) (vaddr : BitVec 32) : Option (BitVec 8 × Kernel) :=
  (s.userPage p vaddr).map fun page => (s.mem (page + vaddr.toNat % pageSize), s.touch p vaddr peA)

def userWrite (p : ℕ) (vaddr : BitVec 32) (byte : BitVec 8) : Option Kernel :=
  if s.bothHave p vaddr peRw then
    (s.userPage p vaddr).map fun page =>
      let s := s.touch p vaddr (peA ||| peD)
      { s with mem := s.mem.writeByte (page + vaddr.toNat % pageSize) byte }
  else none

end Kernel

/-- An entry of the `pcb` table is set up, a page fault is handled, or a process reads or writes a byte. -/
inductive Event
  | setup (isThread : Bool) (swapLoc swapSize : BitVec 32)
  | fault (p : ℕ) (vaddr errorCode : BitVec 32)
  | read (p : ℕ) (vaddr : BitVec 32) (byte : BitVec 8)
  | write (p : ℕ) (vaddr : BitVec 32) (byte : BitVec 8)
deriving DecidableEq, Repr

/-- One event. A fault is raised by a process that has been set up, for an address that is not present: no protection
violation. -/
inductive Step (cfg : Config) (s : Kernel) : Event → Kernel → Prop
  | setup {s' : Kernel} {isThread : Bool} {swapLoc swapSize : BitVec 32}
      (ran : s.createPcb cfg isThread swapLoc swapSize = .ok s') : Step cfg s (.setup isThread swapLoc swapSize) s'
  | fault {s' : Kernel} {p : ℕ} {vaddr errorCode : BitVec 32} (known : p < s.pcbCount)
      (absent : s.NotPresent p vaddr) (ran : s.pageFaultHandler cfg p vaddr errorCode = .ok s') :
      Step cfg s (.fault p vaddr errorCode) s'
  | read {s' : Kernel} {p : ℕ} {vaddr : BitVec 32} {byte : BitVec 8} (known : p < s.pcbCount)
      (user : (s.pcb p).isThread = false) (ran : s.userRead p vaddr = some (byte, s')) :
      Step cfg s (.read p vaddr byte) s'
  | write {s' : Kernel} {p : ℕ} {vaddr : BitVec 32} {byte : BitVec 8} (known : p < s.pcbCount)
      (user : (s.pcb p).isThread = false) (ran : s.userWrite p vaddr byte = some s') :
      Step cfg s (.write p vaddr byte) s'

end MicroOs.Paging
