import MicroOs.Disk.ProcessImage
import MicroOs.Paging.Sectors

/-! # The image builder and the loader agree

Each process that is added leaves the earlier ones and their directory entries alone, so by induction over the
processes a finished image has all of them in place. `readdir` finds the directory behind the kernel, and a byte of a
process is loaded from the distance of its virtual address to `PROCESS_VADDR`, which is its place in the image.

That distance is taken modulo `2 ^ 32`. A segment may start below `PROCESS_VADDR`: its place is then almost `2 ^ 32`
behind the start of the process, and the builder pads the image up to there. If it also reaches over `PROCESS_VADDR`,
the loader takes the rest of it for the start of the image. Such a process is loaded right only if the bytes happen to
be equal.
-/

namespace MicroOs.Disk

open Paging Memory Image List BitVec

variable {bootblock kernel fp : InputFile} {processes : List InputFile} {im im' : Image} {reserved base limit : ℕ}
  {k j : ℕ} {img : Memory}

/-- The sector of the image that starts at a position. -/
def view (img : Memory) (position : ℕ) : Memory := fun i => img (position + i)

theorem view_blit (img source : Memory) (position offset count : ℕ) :
    view (img.blit (position + offset) count source) position = (view img position).blit offset count source := by
  funext i
  have shift : position + i - (position + offset) = i - offset := by omega
  simp only [view, blit, Nat.add_le_add_iff_left, Nat.add_assoc, Nat.add_lt_add_iff_left, shift]

/-- An entry is its eight bytes. -/
theorem entryAt_congr {left right : Memory} {n : ℕ} (same : ∀ i, 8 * n ≤ i → i < 8 * n + 8 → left i = right i) :
    entryAt left n = entryAt right n := by
  rw [entryAt, entryAt, readWord_congr fun i lower upper => same i (by omega) (by omega),
    readWord_congr fun i lower upper => same i (by omega) (by omega)]

theorem entryAt_blit (memory : Memory) (dir : Directory) (n : ℕ) :
    entryAt (memory.blit (8 * n) 8 (entryBytes dir)) n = dir := by
  rw [entryAt, readWord_blit_inside _ _ (by omega) (by omega),
    readWord_blit_inside _ _ (by omega) (by omega), Nat.sub_self, Nat.add_sub_cancel_left, entryBytes,
    readWord_writeWord, readWord_writeWord_disjoint _ _ (by omega), readWord_writeWord]

theorem entryAt_blit_ne (memory : Memory) (dir : Directory) {n : ℕ} (other : k ≠ n) :
    entryAt (memory.blit (8 * n) 8 (entryBytes dir)) k = entryAt memory k := by
  apply entryAt_congr
  intro i lower upper
  exact blit_outside _ _ (by omega)

theorem Holds.congr {img' : Memory} (holds : Holds fp base limit img)
    (same : ∀ i, base ≤ i → i < limit → img' i = img i) : Holds fp base limit img' :=
  { holds with laid := holds.laid.congr fun i inside => same _ (by omega) (by omega) }

/-- Where a process starts or, for the number of processes, where the image ends. -/
def mark (bootblock kernel : InputFile) (processes : List InputFile) (k : ℕ) : Option ℕ :=
  (createImage true bootblock kernel (processes.take k)).map Image.nbytes

/-- The directory lies at `reserved` and has an entry for each process that has been added. -/
structure Stage (bootblock kernel : InputFile) (reserved : ℕ) (processes : List InputFile) (im : Image) : Prop where
  built : createImage true bootblock kernel processes = some im
  sound : im.length = im.nbytes
  whole : im.nbytes % sectorSize = 0
  bounded : im.nbytes ≤ 2 ^ 33
  behind : reserved + sectorSize ≤ im.nbytes
  pdLoc : im.pdLoc = reserved + 8 * processes.length
  pdLim : im.pdLim = reserved + sectorSize
  room : 8 * processes.length + 8 ≤ sectorSize
  osSize : im.img (Image.osSizeLoc + 1) ++ im.img Image.osSizeLoc =
    (BitVec.ofNat 16 (reserved / sectorSize) - 1 : BitVec 16)
  holds : ∀ k fp, processes[k]? = some fp → ∃ base limit, mark bootblock kernel processes k = some base ∧
    mark bootblock kernel processes (k + 1) = some limit ∧ reserved + sectorSize ≤ base ∧ limit ≤ im.nbytes ∧
    Holds fp base limit im.img ∧
    entryAt (view im.img reserved) k =
      ⟨BitVec.ofNat 32 (base / sectorSize), BitVec.ofNat 32 ((limit - base) / sectorSize)⟩
  blank : ∀ i, 8 * processes.length ≤ i → i < sectorSize → im.img (reserved + i) = 0

def build (bootblock kernel : InputFile) (processes : List InputFile) : Option Image :=
  (createKernel true bootblock kernel).bind fun im => processes.foldlM (fun im fp => Image.addProcess im true fp) im

theorem createImage_eq_some_iff : createImage true bootblock kernel processes = some im ↔
    build bootblock kernel processes = some im ∧ im.nbytes % sectorSize = 0 := by
  simp only [createImage, build, if_true, Option.bind_some, Option.bind_eq_some_iff]
  constructor
  · rintro ⟨start, first, last, added, checked⟩
    split at checked
    · cases checked
      exact ⟨⟨start, first, added⟩, ‹_›⟩
    · cases checked
  · rintro ⟨⟨start, first, added⟩, whole⟩
    exact ⟨start, first, im, added, if_pos whole⟩

theorem build_append (bootblock kernel : InputFile) (processes : List InputFile) (fp : InputFile) :
    build bootblock kernel (processes ++ [fp]) =
      (build bootblock kernel processes).bind fun im => im.addProcess true fp := by
  have last (im : Image) : ([fp].foldlM (fun im fp => addProcess im true fp) im) = im.addProcess true fp := by
    exact Option.bind_fun_some _
  simp only [build, foldlM_append, last, Option.bind_assoc]
  rfl

/-- The boot block fills one sector, and the kernel has fewer than 65536. -/
structure KernelFiles (bootblock kernel : InputFile) : Prop where
  oneSector : ∀ im, ({} : Image).addFile true bootblock = some im → im.nbytes = sectorSize
  small : ∀ im im', ({} : Image).addFile true bootblock = some im → im.addFile true kernel = some im' →
    im'.nbytes < sectorSize + 65536 * sectorSize

theorem halves_append (half : BitVec 16) : half.extractLsb' 8 8 ++ half.extractLsb' 0 8 = half := by
  ext i bound
  grind

theorem writeOsSize_spec (sound : im.length = im.nbytes) (long : 4 ≤ im.nbytes) (written : im.writeOsSize = some im') :
    im'.nbytes = im.nbytes ∧ im'.length = im'.nbytes ∧ im'.img (osSizeLoc + 1) ++ im'.img osSizeLoc =
      (BitVec.ofNat 16 (im.nbytes / sectorSize) - 1 : BitVec 16) := by
  unfold writeOsSize at written
  split at written
  · cases written
  · cases written
    refine ⟨rfl, ?_, ?_⟩
    · simp only [overwrite, osSizeLoc]
      omega
    · exact halves_append _

theorem reserveProcessDir_eq (reserved : im.reserveProcessDir = some im') :
    im' = { im.put sectorSize (fun _ => 0) with pdLoc := im.nbytes, pdLim := im.nbytes + sectorSize } := by
  unfold reserveProcessDir at reserved
  split at reserved
  · cases reserved
  · cases reserved
    rfl

theorem stage_kernel (files : KernelFiles bootblock kernel) (built : build bootblock kernel [] = some im) :
    ∃ reserved, Stage bootblock kernel reserved [] im ∧ reserved % sectorSize = 0 ∧ sectorSize ≤ reserved ∧
      reserved < sectorSize + 65536 * sectorSize := by
  have created : createKernel true bootblock kernel = some im := by
    simpa [build] using built
  obtain ⟨first, booted, more⟩ := Option.bind_eq_some_iff.mp created
  obtain ⟨second, loaded, rest⟩ := Option.bind_eq_some_iff.mp more
  obtain ⟨third, sized, reserved⟩ := Option.bind_eq_some_iff.mp rest
  obtain ⟨grows, -⟩ := addFile_grows rfl booted
  obtain ⟨grows', whole⟩ := addFile_grows grows.sound loaded
  have small := files.small first second booted loaded
  have one := files.oneSector first booted
  have longer := grows'.longer
  have sound := grows'.sound
  obtain ⟨same, sound', osSize⟩ := writeOsSize_spec sound (by rw [sectorSize] at one; omega) sized
  obtain rfl := reserveProcessDir_eq reserved
  rw [← same] at whole osSize
  have sector : (third.nbytes + sectorSize) % sectorSize = 0 := by rw [Nat.add_mod_right, whole]
  refine ⟨third.nbytes, ?_, whole, by omega, by omega⟩
  exact
    { built := createImage_eq_some_iff.mpr ⟨built, sector⟩
      sound := congrArg (· + sectorSize) sound'
      whole := sector
      bounded := by
        simp only [put, sectorSize] at *
        omega
      behind := Nat.le_refl _
      pdLoc := rfl
      pdLim := rfl
      room := by decide
      osSize := by
        have before (i : ℕ) (low : i < 4) : (third.put sectorSize fun _ => 0).img i = third.img i :=
          put_before third _ (by rw [sectorSize] at one; omega)
        rw [← osSize]
        exact congrArg₂ _ (before _ (by decide)) (before _ (by decide))
      holds := fun k fp found => by cases found
      blank := by
        intro i _ inside
        have zero : (third.put sectorSize fun _ => 0).img (third.nbytes + i) = 0 :=
          put_inside third _ (by omega) (by omega)
        exact zero }

theorem mark_append (earlier : k ≤ processes.length) :
    mark bootblock kernel (processes ++ [fp]) k = mark bootblock kernel processes k := by
  rw [mark, mark, take_append_of_le_length earlier]

theorem mark_length (built : createImage true bootblock kernel processes = some im) :
    mark bootblock kernel processes processes.length = some im.nbytes := by
  rw [mark, take_length, built]
  rfl

theorem addProcessToDir_eq (added : im.addProcessToDir = some im') :
    im.pdLoc + 8 < im.pdLim ∧
      im' = { im.overwrite im.pdLoc 8 (entryBytes im.dir) with pdLoc := im.pdLoc + 8 } := by
  unfold addProcessToDir at added
  split at added
  · cases added
  · cases added
    exact ⟨by omega, rfl⟩

/-- A process is laid out at the end of the image and gets the next entry of the directory. -/
theorem Stage.addProcess (stage : Stage bootblock kernel reserved processes im) (low : 4 ≤ reserved)
    (file : ProcessFile fp) (built : build bootblock kernel (processes ++ [fp]) = some im')
    (added : im.addProcess true fp = some im') : Stage bootblock kernel reserved (processes ++ [fp]) im' := by
  obtain ⟨laid, addedFile, addedEntry⟩ := Option.bind_eq_some_iff.mp added
  obtain ⟨grows, whole⟩ := addFile_grows stage.sound addedFile
  have behind := stage.behind
  obtain ⟨holds, dir⟩ := addFile_holds file stage.sound (by rw [sectorSize] at behind; omega) stage.bounded addedFile
  obtain ⟨room, rfl⟩ := addProcessToDir_eq addedEntry
  rw [grows.pdLoc, grows.pdLim, stage.pdLoc, stage.pdLim] at room
  have pdLoc := grows.pdLoc.trans stage.pdLoc
  have longer := grows.longer
  -- The bytes that are kept: everything before the new image, apart from the entry.
  have old (i : ℕ) (before : i < im.nbytes)
      (apart : i < reserved + 8 * processes.length ∨ reserved + 8 * processes.length + 8 ≤ i) :
      laid.img.blit laid.pdLoc 8 (entryBytes laid.dir) i = im.img i := by
    rw [blit_outside _ _ (by omega), grows.same i before]
  have new (i : ℕ) (behind : im.nbytes ≤ i) :
      laid.img.blit laid.pdLoc 8 (entryBytes laid.dir) i = laid.img i := by
    rw [blit_outside _ _ (by omega)]
  have directory : view (laid.img.blit laid.pdLoc 8 (entryBytes laid.dir)) reserved =
      (view laid.img reserved).blit (8 * processes.length) 8 (entryBytes laid.dir) := by
    rw [pdLoc, view_blit]
  have size : (processes ++ [fp]).length = processes.length + 1 := length_append
  have built' := createImage_eq_some_iff.mpr ⟨built, whole⟩
  exact
    { built := built'
      sound := by
        simp only [overwrite]
        rw [grows.sound]
        omega
      whole := whole
      bounded := holds.bounded
      behind := Nat.le_trans behind longer
      pdLoc := by
        simp only [pdLoc]
        omega
      pdLim := grows.pdLim.trans stage.pdLim
      room := by
        simp only [sectorSize] at room ⊢
        omega
      osSize := by
        rw [← stage.osSize]
        exact congrArg₂ _ (old _ (by simp only [osSizeLoc]; omega) (by simp only [osSizeLoc]; omega))
          (old _ (by simp only [osSizeLoc]; omega) (by simp only [osSizeLoc]; omega))
      holds := by
        intro k other found
        rcases Nat.lt_trichotomy k processes.length with earlier | rfl | later
        · rw [List.getElem?_append_left earlier] at found
          obtain ⟨base, limit, start, ends, above, below, held, entry⟩ := stage.holds k other found
          refine ⟨base, limit, ?_, ?_, above, Nat.le_trans below longer, ?_, ?_⟩
          · rw [mark_append earlier.le, start]
          · rw [mark_append earlier, ends]
          · exact held.congr fun i lower upper => old i (by omega) (by omega)
          · rw [← entry]
            simp only [overwrite, directory]
            rw [entryAt_blit_ne _ _ earlier.ne]
            exact entryAt_congr fun i lower upper => grows.same _ (by omega)
        · rw [List.getElem?_concat_length] at found
          cases found
          refine ⟨im.nbytes, laid.nbytes, ?_, ?_, behind, Nat.le_refl _, ?_, ?_⟩
          · rw [mark_append (Nat.le_refl _), mark_length stage.built]
          · rw [← size, mark_length built']
            rfl
          · exact holds.congr fun i lower upper => new i lower
          · simp only [overwrite, directory]
            rw [entryAt_blit, dir]
        · rw [List.getElem?_eq_none (by omega)] at found
          cases found
      blank := by
        intro i lower upper
        exact (old _ (by omega) (by omega)).trans (stage.blank i (by omega) upper) }

/-- Every image that is built has its directory and its processes in place. -/
theorem stage_of_build (kernelFiles : KernelFiles bootblock kernel) (files : ∀ fp ∈ processes, ProcessFile fp)
    (built : build bootblock kernel processes = some im) :
    ∃ reserved, Stage bootblock kernel reserved processes im ∧ reserved % sectorSize = 0 ∧ sectorSize ≤ reserved ∧
      reserved < sectorSize + 65536 * sectorSize := by
  induction processes using reverseRecOn generalizing im with
  | nil => exact stage_kernel kernelFiles built
  | append_singleton processes fp ih =>
    have split := built
    rw [build_append] at split
    obtain ⟨before, earlier, added⟩ := Option.bind_eq_some_iff.mp split
    obtain ⟨reserved, stage, whole, lower, upper⟩ := ih (fun other member => files other (by simp [member])) earlier
    have low : 4 ≤ reserved := by
      rw [sectorSize] at lower
      omega
    exact ⟨reserved, stage.addProcess low (files fp (by simp)) built added, whole, lower, upper⟩

/-- The image is what the disk starts with. -/
def Written (im : Image) (disk : BitVec 32 → Memory) : Prop :=
  ∀ i < im.length, disk (BitVec.ofNat 32 (i / sectorSize)) (i % sectorSize) = im.img i

variable {disk : BitVec 32 → Memory}

theorem Stage.readdir_eq (stage : Stage bootblock kernel reserved processes im) (written : Written im disk)
    (whole : reserved % sectorSize = 0) (lower : sectorSize ≤ reserved)
    (upper : reserved < sectorSize + 65536 * sectorSize) :
    ∀ i < sectorSize, readdir disk i = view im.img reserved i := by
  intro i inside
  have behind := stage.behind
  have sound := stage.sound
  have second := written osSizeLoc (by simp only [osSizeLoc, sectorSize] at *; omega)
  have third := written (osSizeLoc + 1) (by simp only [osSizeLoc, sectorSize] at *; omega)
  have osSize : (disk 0 (osSizeLoc + 1) ++ disk 0 osSizeLoc : BitVec 16) =
      BitVec.ofNat 16 (reserved / sectorSize) - 1 := by
    rw [← stage.osSize, ← second, ← third]
    rfl
  have sector : (BitVec.ofNat 16 (reserved / sectorSize) - 1 : BitVec 16).setWidth 32 + 1 =
      BitVec.ofNat 32 (reserved / sectorSize) := by
    simp only [sectorSize] at *
    bv_omega
  have byte := written (reserved + i) (by omega)
  have place : (reserved + i) / sectorSize = reserved / sectorSize ∧ (reserved + i) % sectorSize = i := by
    simp only [sectorSize] at *
    omega
  rw [place.1, place.2] at byte
  rw [readdir, osSize, sector, byte, view]

theorem loadedByte_eq {dir : Directory} (holds : Holds fp base limit img)
    (location : dir.location = BitVec.ofNat 32 (base / sectorSize))
    (size : dir.size = BitVec.ofNat 32 ((limit - base) / sectorSize)) (vaddr : BitVec 32)
    (inside : base + (vaddr - processVaddr).toNat < limit) :
    loadedByte disk (loadproc dir) vaddr =
      disk (BitVec.ofNat 32 ((base + (vaddr - processVaddr).toNat) / sectorSize))
        ((base + (vaddr - processVaddr).toNat) % sectorSize) := by
  obtain ⟨ordered, base_mod, limit_mod, bounded, -⟩ := holds
  have offset := diskOffset_eq vaddr
  have count := blockCount_eq (loadproc dir) vaddr
  have low : vaddr.toNat % pageSize = (vaddr - processVaddr).toNat % pageSize := by
    simp only [processVaddr, pageSize]
    bv_omega
  have sizeNat : dir.size.toNat = (limit - base) / sectorSize := by
    rw [size, toNat_ofNat]
    simp only [sectorSize]
    omega
  generalize (vaddr - processVaddr).toNat = q at offset low inside ⊢
  simp only [pageSize, sectorSize] at *
  have fits : diskOffset vaddr ≤ dir.size := by
    rw [le_def, sizeNat]
    omega
  have transferred : q % 4096 < 512 * (blockCount (loadproc dir) vaddr).toNat := by
    have rest : ((loadproc dir).swapSize - diskOffset vaddr).toNat = dir.size.toNat - (diskOffset vaddr).toNat :=
      toNat_sub_of_le fits
    omega
  have sector : diskLoc (loadproc dir) vaddr + BitVec.ofNat 32 (q % 4096 / 512) =
      BitVec.ofNat 32 ((base + q) / 512) := by
    apply eq_of_toNat_eq
    rw [diskLoc, loadproc, location, toNat_add, toNat_add]
    simp only [toNat_ofNat]
    omega
  have position : q % 4096 % 512 = (base + q) % 512 := by omega
  rw [loadedByte, readBuffer]
  simp only [pageSize, sectorSize, low]
  rw [if_pos transferred, sector, position]

/-- Each byte of an executable segment is loaded to its virtual address. -/
def LoadsSegments (disk : BitVec 32 → Memory) (dir : Directory) (fp : InputFile) : Prop :=
  ∀ phdr ∈ fp.headers, phdr.Executable → ∀ j < phdr.memsz.toNat,
    loadedByte disk (loadproc dir) (phdr.vaddr + BitVec.ofNat 32 j) = fp.segmentByte phdr j

/-- The loader finds what the builder has written: a directory entry with the sectors of each process, in order, then
zeros, and each byte of a segment at its virtual address. -/
structure Agrees (bootblock kernel : InputFile) (processes : List InputFile) (disk : BitVec 32 → Memory) : Prop where
  listed : listProcesses (readdir disk) = (range processes.length).map (entryAt (readdir disk))
  sectors : ∀ k < processes.length, ∃ start finish, mark bootblock kernel processes k = some (sectorSize * start) ∧
    mark bootblock kernel processes (k + 1) = some (sectorSize * finish) ∧ start ≤ finish ∧
    (entryAt (readdir disk) k).location.toNat = start ∧ (entryAt (readdir disk) k).size.toNat = finish - start
  ordered : ∀ k l, k < l → l < processes.length →
    (entryAt (readdir disk) k).location.toNat + (entryAt (readdir disk) k).size.toNat ≤
      (entryAt (readdir disk) l).location.toNat
  zero : ∀ k, processes.length ≤ k → k < 64 → entryAt (readdir disk) k = {}
  contents : ∀ k fp, processes[k]? = some fp → LoadsSegments disk (entryAt (readdir disk) k) fp

/-- A segment that runs through the end of the address space to `PROCESS_VADDR` has the bytes there that start the
process. -/
def WrapsAlike (fp : InputFile) : Prop :=
  ∀ phdr ∈ fp.headers, phdr.Executable → ∀ j < phdr.memsz.toNat, 2 ^ 32 ≤ phdr.place + j →
    fp.segmentByte phdr j = Chunk.lookup 0 fp.chunks (phdr.place + j - 2 ^ 32)

/-- The loader looks for a byte at the distance from `PROCESS_VADDR`, modulo the size of the address space. -/
theorem place_add (phdr : Phdr) (j : ℕ) :
    (phdr.vaddr + BitVec.ofNat 32 j - processVaddr).toNat = (phdr.place + j) % 2 ^ 32 := by
  have sum : phdr.vaddr + BitVec.ofNat 32 j - processVaddr = phdr.vaddr - processVaddr + BitVec.ofNat 32 j := by
    bv_omega
  rw [sum, toNat_add, toNat_ofNat, Nat.add_mod_mod, Phdr.place]

theorem Phdr.place_mod (phdr : Phdr) (inside : j < phdr.memsz.toNat) (around : 2 ^ 32 ≤ phdr.place + j) :
    (phdr.place + j) % 2 ^ 32 = phdr.place + j - 2 ^ 32 := by
  have bound : phdr.place < 2 ^ 32 := (phdr.vaddr - processVaddr).isLt
  omega

theorem mem_chunks {phdr : Phdr} (member : phdr ∈ fp.headers) (executable : phdr.Executable)
    (inside : j < phdr.memsz.toNat) : fp.chunk phdr ∈ fp.chunks := by
  apply mem_map_of_mem
  apply mem_filter.mpr
  refine ⟨member, decide_eq_true ⟨executable, ?_⟩⟩
  rintro empty
  rw [empty] at inside
  exact absurd inside (Nat.not_lt_zero j)

theorem Holds.loadedByte {phdr : Phdr} (holds : Holds fp base limit im.img) (written : Written im disk)
    (below : limit ≤ im.length) (member : phdr ∈ fp.headers) (executable : phdr.Executable)
    (inside : j < phdr.memsz.toNat) :
    Disk.loadedByte disk
        (loadproc ⟨BitVec.ofNat 32 (base / sectorSize), BitVec.ofNat 32 ((limit - base) / sectorSize)⟩)
        (phdr.vaddr + BitVec.ofNat 32 j) = Chunk.lookup 0 fp.chunks ((phdr.place + j) % 2 ^ 32) := by
  have chunk := mem_chunks member executable inside
  have ends : phdr.place + phdr.memsz.toNat ≤ limit - base := holds.laid.bounded _ chunk
  have place := place_add phdr j
  rw [loadedByte_eq holds rfl rfl _ (by rw [place]; omega), place, written _ (by omega)]
  exact holds.laid.contents _ (by omega)

/-- The bytes of a process are loaded where they belong, apart from those behind the end of the address space. -/
theorem Holds.loadsSegments_iff (holds : Holds fp base limit im.img) (written : Written im disk)
    (below : limit ≤ im.length) :
    LoadsSegments disk ⟨BitVec.ofNat 32 (base / sectorSize), BitVec.ofNat 32 ((limit - base) / sectorSize)⟩ fp ↔
      WrapsAlike fp := by
  constructor
  · intro loads phdr member executable j inside around
    rw [← loads phdr member executable j inside, holds.loadedByte written below member executable inside,
      phdr.place_mod inside around]
  · intro alike phdr member executable j inside
    rw [holds.loadedByte written below member executable inside]
    rcases Nat.lt_or_ge (phdr.place + j) (2 ^ 32) with before | around
    · have chunk := mem_chunks member executable inside
      have ends : phdr.place + phdr.memsz.toNat ≤ limit - base := holds.laid.bounded _ chunk
      rw [Nat.mod_eq_of_lt before, ← holds.laid.contents _ (by omega)]
      exact holds.laid.content chunk inside
    · rw [alike phdr member executable j inside around, phdr.place_mod inside around]

theorem listFrom_eq {buf : Memory} {fuel count p : ℕ} (enough : count < fuel)
    (present : ∀ k, p ≤ k → k < p + count → (entryAt buf k).location ≠ 0)
    (last : (entryAt buf (p + count)).location = 0) : listFrom buf fuel p = (range' p count).map (entryAt buf) := by
  induction fuel generalizing count p with
  | zero => cases enough
  | succ fuel ih =>
    cases count with
    | zero =>
      exact if_pos last
    | succ count =>
      have rest : listFrom buf fuel (p + 1) = (range' (p + 1) count).map (entryAt buf) := by
        apply ih (by omega)
        · intro k lower upper
          exact present k (by omega) (by omega)
        · rwa [Nat.add_assoc, Nat.add_comm 1 count]
      rw [listFrom, if_neg (present p (Nat.le_refl _) (by omega)), rest, range'_succ, map_cons]

theorem entryAt_readdir (directory : ∀ i < sectorSize, readdir disk i = view img reserved i)
    (inside : k < 64) : entryAt (readdir disk) k = entryAt (view img reserved) k := by
  apply entryAt_congr
  intro i lower upper
  apply directory
  rw [sectorSize]
  omega

theorem entryAt_zero {buf : Memory} (blank : ∀ i, 8 * k ≤ i → i < 8 * k + 8 → buf i = 0) : entryAt buf k = {} := by
  have same := entryAt_congr blank
  have zeros : (0 : Byte) ++ (0 : Byte) ++ (0 : Byte) ++ (0 : Byte) = (0 : BitVec 32) := by decide
  rw [same]
  simp only [entryAt, readWord, zeros]

namespace Stage

variable (stage : Stage bootblock kernel reserved processes im) (written : Written im disk)
  (directory : ∀ i < sectorSize, readdir disk i = view im.img reserved i)

include stage directory

theorem entry (inside : k < processes.length) :
    ∃ base limit, mark bootblock kernel processes k = some base ∧ mark bootblock kernel processes (k + 1) = some limit ∧
      reserved + sectorSize ≤ base ∧ limit ≤ im.length ∧ Holds (processes.get ⟨k, inside⟩) base limit im.img ∧
      entryAt (readdir disk) k =
        ⟨BitVec.ofNat 32 (base / sectorSize), BitVec.ofNat 32 ((limit - base) / sectorSize)⟩ := by
  have room := stage.room
  obtain ⟨base, limit, start, ends, above, below, held, entry⟩ :=
    stage.holds k _ (getElem?_eq_getElem inside)
  refine ⟨base, limit, start, ends, above, ?_, held, ?_⟩
  · rw [stage.sound]
    exact below
  · have few : k < 64 := by
      rw [sectorSize] at room
      omega
    rw [entryAt_readdir directory few, entry]

theorem zero (behind : processes.length ≤ k) (inside : k < 64) : entryAt (readdir disk) k = {} := by
  rw [entryAt_readdir directory inside]
  apply entryAt_zero
  intro i lower upper
  apply stage.blank
  · omega
  · rw [sectorSize]
    omega

theorem sectors (inside : k < processes.length) :
    ∃ start finish, mark bootblock kernel processes k = some (sectorSize * start) ∧
      mark bootblock kernel processes (k + 1) = some (sectorSize * finish) ∧ start ≤ finish ∧ 0 < start ∧
      (entryAt (readdir disk) k).location.toNat = start ∧ (entryAt (readdir disk) k).size.toNat = finish - start := by
  obtain ⟨base, limit, start, ends, above, -, ⟨ordered, base_mod, limit_mod, bounded, -⟩, entry⟩ :=
    stage.entry directory inside
  simp only [sectorSize] at *
  refine ⟨base / 512, limit / 512, ?_, ?_, by omega, by omega, ?_, ?_⟩
  · rw [start, Nat.mul_div_cancel' (by omega)]
  · rw [ends, Nat.mul_div_cancel' (by omega)]
  all_goals
    rw [entry, toNat_ofNat]
    omega

theorem listed : listProcesses (readdir disk) = (range processes.length).map (entryAt (readdir disk)) := by
  have room := stage.room
  have few : processes.length < 64 := by
    rw [sectorSize] at room
    omega
  rw [range_eq_range']
  apply listFrom_eq few
  · intro k _ inside none
    obtain ⟨start, finish, -, -, -, positive, location, -⟩ := stage.sectors directory (by omega : k < processes.length)
    rw [none] at location
    exact absurd location positive.ne
  · rw [Nat.zero_add, stage.zero directory (Nat.le_refl _) few]

include written

theorem contents_iff :
    (∀ k fp, processes[k]? = some fp → LoadsSegments disk (entryAt (readdir disk) k) fp) ↔
      ∀ fp ∈ processes, WrapsAlike fp := by
  constructor
  · intro loads fp member
    obtain ⟨k, inside, rfl⟩ := getElem_of_mem member
    obtain ⟨base, limit, -, -, -, below, holds, entry⟩ := stage.entry directory inside
    have process := loads k _ (List.getElem?_eq_getElem inside)
    rw [entry] at process
    exact (holds.loadsSegments_iff written below).mp process
  · intro alike k fp found
    obtain ⟨inside, rfl⟩ := List.getElem?_eq_some_iff.mp found
    obtain ⟨base, limit, -, -, -, below, holds, entry⟩ := stage.entry directory inside
    rw [entry]
    exact (holds.loadsSegments_iff written below).mpr (alike _ (getElem_mem inside))

end Stage

theorem mark_mono (kernelFiles : KernelFiles bootblock kernel) (files : ∀ fp ∈ processes, ProcessFile fp) {l : ℕ}
    (before : k < l) (inside : l ≤ processes.length) {ends starts : ℕ}
    (finish : mark bootblock kernel processes (k + 1) = some ends)
    (start : mark bootblock kernel processes l = some starts) : ends ≤ starts := by
  obtain ⟨im, built, rfl⟩ := Option.map_eq_some_iff.mp start
  obtain ⟨reserved, stage, -⟩ := stage_of_build kernelFiles (fun fp member => files fp (mem_of_mem_take member))
    (createImage_eq_some_iff.mp built).1
  have present : k < (processes.take l).length := by
    rw [length_take]
    omega
  obtain ⟨base, limit, -, ends', -, below, -⟩ := stage.holds k _ (getElem?_eq_getElem present)
  rw [mark, take_take, Nat.min_eq_left (by omega)] at ends'
  obtain rfl : limit = ends := Option.some.inj (ends'.symm.trans finish)
  exact below

/-- A loader that finds every byte needs segments that do not run through the end of the address space to other bytes.
-/
theorem wrapsAlike_of_agrees (kernelFiles : KernelFiles bootblock kernel) (files : ∀ fp ∈ processes, ProcessFile fp)
    (finished : createImage true bootblock kernel processes = some im) (written : Written im disk)
    (agrees : Agrees bootblock kernel processes disk) : ∀ fp ∈ processes, WrapsAlike fp := by
  obtain ⟨reserved, stage, whole, lower, upper⟩ :=
    stage_of_build kernelFiles files (createImage_eq_some_iff.mp finished).1
  exact (stage.contents_iff written (stage.readdir_eq written whole lower upper)).mp agrees.contents

/-- The loader agrees with a finished image exactly when no segment wraps around to other bytes. -/
theorem image_agrees_iff (kernelFiles : KernelFiles bootblock kernel) (files : ∀ fp ∈ processes, ProcessFile fp)
    (finished : createImage true bootblock kernel processes = some im) (written : Written im disk) :
    Agrees bootblock kernel processes disk ↔ ∀ fp ∈ processes, WrapsAlike fp := by
  constructor
  · exact wrapsAlike_of_agrees kernelFiles files finished written
  · intro alike
    obtain ⟨reserved, stage, whole, lower, upper⟩ :=
      stage_of_build kernelFiles files (createImage_eq_some_iff.mp finished).1
    have directory := stage.readdir_eq written whole lower upper
    refine ⟨stage.listed directory, ?_, ?_, ?_, (stage.contents_iff written directory).mpr alike⟩
    · intro k inside
      obtain ⟨start, finish, starts, ends, ordered, -, location, size⟩ := stage.sectors directory inside
      exact ⟨start, finish, starts, ends, ordered, location, size⟩
    · intro k l before inside
      obtain ⟨start, finish, -, ends, ordered, -, location, size⟩ :=
        stage.sectors directory (by omega : k < processes.length)
      obtain ⟨start', finish', starts, -, -, -, location', -⟩ := stage.sectors directory inside
      have apart := mark_mono kernelFiles files before inside.le ends starts
      have sectors : finish ≤ start' := Nat.le_of_mul_le_mul_left apart (by decide)
      omega
    · intro k behind inside
      exact stage.zero directory behind inside

def diskOf (im : Image) : BitVec 32 → Memory := fun sector i => im.img (sectorSize * sector.toNat + i)

theorem written_diskOf (small : im.length ≤ 2 ^ 40) : Written im (diskOf im) := by
  intro i inside
  have sector : i / sectorSize % 2 ^ 32 = i / sectorSize := by
    rw [sectorSize]
    omega
  rw [diskOf, toNat_ofNat, sector, Nat.div_add_mod]

/-- A file with program headers behind the ELF header, and `0x90` everywhere else. -/
def elf (phdrs : List Phdr) (size : ℕ) : InputFile where
  data :=
    let ehdr : Memory :=
      (((writeWord (fun _ => 0x90) 0 0x464c457f).writeWord 28 52).writeWord 40 0x00200034).writeWord 44
        (BitVec.ofNat 32 phdrs.length)
    phdrs.zipIdx.foldl (fun data (phdr, ph) =>
      let position := 52 + 32 * ph
      (((((data.writeWord position phdr.type).writeWord (position + 4) phdr.offset).writeWord (position + 8)
        phdr.vaddr).writeWord (position + 16) phdr.filesz).writeWord (position + 20) phdr.memsz).writeWord
        (position + 24) phdr.flags) ehdr
  size := size

def sampleBootblock : InputFile := elf [⟨1, 0, 0, 512, 512, 5⟩] 512
def sampleKernel : InputFile := elf [⟨1, 0, 0x8000, 512, 600, 5⟩] 512
/-- A process with one segment, which the file has in part. -/
def sampleProcess : InputFile := elf [⟨1, 0, 0x1000000, 600, 5000, 5⟩] 600

theorem sampleKernel_files : KernelFiles sampleBootblock sampleKernel := by
  have first : (({} : Image).addFile true sampleBootblock).map nbytes = some 512 := by decide +kernel
  have second : ((({} : Image).addFile true sampleBootblock).bind fun im => im.addFile true sampleKernel).map
      nbytes = some 1536 := by decide +kernel
  refine ⟨?_, ?_⟩
  · intro im booted
    rw [booted] at first
    exact Option.some.inj first
  · intro im im' booted loaded
    rw [booted, Option.bind_some, loaded] at second
    rw [Option.some.inj second]
    decide

/-- The image of the sample files with one process, of a given length. -/
theorem exists_image {process : InputFile} {length : ℕ}
    (built : (createImage true sampleBootblock sampleKernel [process]).map Image.length = some length)
    (small : length ≤ 2 ^ 40) :
    ∃ im, createImage true sampleBootblock sampleKernel [process] = some im ∧ Written im (diskOf im) := by
  obtain ⟨im, finished, rfl⟩ := Option.map_eq_some_iff.mp built
  exact ⟨im, finished, written_diskOf small⟩

theorem image_agrees_one_process : ∃ im, createImage true sampleBootblock sampleKernel [sampleProcess] = some im ∧
    Agrees sampleBootblock sampleKernel [sampleProcess] (diskOf im) := by
  have built : (createImage true sampleBootblock sampleKernel [sampleProcess]).map Image.length = some 7168 := by
    decide +kernel
  have headers : sampleProcess.headers = [⟨1, 0, 0x1000000, 600, 5000, 5⟩] := by decide +kernel
  obtain ⟨im, finished, written⟩ := exists_image built (by decide)
  refine ⟨im, finished, (image_agrees_iff sampleKernel_files ?_ finished written).mpr ?_⟩
  · intro fp member
    rw [mem_singleton.mp member]
    refine ⟨?_, ?_⟩
    · exact ⟨_, rfl, by decide⟩
    · decide
  · intro fp member phdr present executable j inside around
    rw [mem_singleton.mp member, headers, mem_singleton] at present
    subst present
    have place : (⟨1, 0, 0x1000000, 600, 5000, 5⟩ : Phdr).place = 0 := by decide
    omega

/-- A process whose executable segment starts below `PROCESS_VADDR` and reaches over it. -/
def wrappingProcess : InputFile :=
  elf [⟨1, 0, 0x1000000, 0, 0, 4⟩, ⟨1, 0x1000, 0xf00000, 0x200000, 0x200000, 5⟩] 0x201000

/-- The image is finished, but the byte at `PROCESS_VADDR` is loaded from its padding. -/
theorem wrapping_segment_disagrees : KernelFiles sampleBootblock sampleKernel ∧ ProcessFile wrappingProcess ∧
    ∃ im, createImage true sampleBootblock sampleKernel [wrappingProcess] = some im ∧ Written im (diskOf im) ∧
      ¬Agrees sampleBootblock sampleKernel [wrappingProcess] (diskOf im) := by
  have built : (createImage true sampleBootblock sampleKernel [wrappingProcess]).map Image.length =
      some 0x100100800 := by decide +kernel
  have headers : wrappingProcess.headers =
      [⟨1, 0, 0x1000000, 0, 0, 4⟩, ⟨1, 0x1000, 0xf00000, 0x200000, 0x200000, 5⟩] := by decide +kernel
  have file : ProcessFile wrappingProcess := by
    refine ⟨?_, ?_⟩
    · exact ⟨_, rfl, by decide⟩
    · decide
  obtain ⟨im, finished, written⟩ := exists_image built (by decide)
  refine ⟨sampleKernel_files, file, im, finished, written, ?_⟩
  intro agrees
  have alike := wrapsAlike_of_agrees sampleKernel_files (by simpa using file) finished written agrees _
    (mem_singleton_self _) ⟨1, 0x1000, 0xf00000, 0x200000, 0x200000, 5⟩ (by simp [headers]) (by decide) 0x100000
    (by decide) (by decide)
  exact absurd alike (by decide)

end MicroOs.Disk
