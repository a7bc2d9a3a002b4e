import MicroOs.Disk.CreateImage
import MicroOs.Library.Chunks

/-! # The image of a process

A file is laid out from the next sector on. The place of a segment is the distance of its virtual address from the
page of the first header, in unsigned arithmetic, and a place before the end of the image stops the builder. So the
segments of a process are chunks in increasing order, with zeros between them and up to the end of the last sector.
-/

namespace MicroOs.Disk

open Paging BitVec Image List Option

namespace InputFile

variable (fp : InputFile)

def headers : List Phdr :=
  match readEhdr fp with
  | none => []
  | some ehdr => (range ehdr.phnum.toNat).filterMap (readPhdr fp ehdr)

/-- A byte of a segment: from the file, or zero behind the part that the file has. -/
def segmentByte (phdr : Phdr) (j : ℕ) : Byte := if j < phdr.filesz.toNat then fp.fgetc (phdr.offset.toNat + j) else 0

end InputFile

/-- A segment that goes to the image. -/
def Phdr.Executable (phdr : Phdr) : Prop := phdr.type = ptLoad ∧ phdr.flags &&& pfX ≠ 0

instance (phdr : Phdr) : Decidable phdr.Executable := inferInstanceAs (Decidable (_ ∧ _))

variable {im im' im'' : Image} {fp : InputFile} {phdr : Phdr} {vm : Bool} {vaddr : BitVec 32}

/-- How far a segment starts behind `PROCESS_VADDR`, modulo `2 ^ 32`. -/
def Phdr.place (phdr : Phdr) : ℕ := (phdr.vaddr - processVaddr).toNat

namespace InputFile

variable (fp : InputFile)

def segments (phdrs : List Phdr) : List Phdr := phdrs.filter fun phdr => phdr.Executable ∧ phdr.memsz ≠ 0

def chunk (phdr : Phdr) : Chunk Byte := ⟨phdr.place, phdr.memsz.toNat, fp.segmentByte phdr⟩

def chunks : List (Chunk Byte) := (segments fp.headers).map fp.chunk

end InputFile

theorem processStart_eq (started : im.processStart vm vaddr = some im') :
    im.nbytes % sectorSize = 0 ∧
      ∃ offset, im' = { im with dir.location := BitVec.ofNat 32 (im.nbytes / sectorSize), offset } := by
  unfold Image.processStart at started
  split at started
  · cases started
  · next whole =>
    refine ⟨not_not.mp whole, ?_⟩
    dsimp only at started
    split at started
    · split at started
      · cases started
        exact ⟨_, rfl⟩
      · cases started
    · split at started
      all_goals
        cases started
        exact ⟨_, rfl⟩

theorem processStart_offset (started : im.processStart true vaddr = some im') (behind : im.nbytes ≠ 0) :
    im'.offset = BitVec.ofNat 32 im.nbytes - alignPageDown vaddr := by
  unfold Image.processStart at started
  split at started
  · cases started
  · simp only [behind, Bool.true_eq_false] at started
    cases started
    rfl

theorem writeSegment_eq (written : im.writeSegment fp phdr = some im') (nonempty : phdr.memsz ≠ 0) :
    im.nbytes ≤ (phdr.vaddr + im.offset).toNat ∧
      im' = ((im.padTo (phdr.vaddr + im.offset).toNat).put phdr.filesz.toNat
        fun i => fp.fgetc (phdr.offset.toNat + i)).put (phdr.memsz - phdr.filesz).toNat fun _ => 0 := by
  simp only [Image.writeSegment, nonempty, if_false] at written
  split at written
  · cases written
  · next behind =>
    cases written
    exact ⟨Nat.le_of_not_lt behind, rfl⟩

/-- What is appended leaves the bytes before it alone. -/
structure Grows (im im' : Image) : Prop where
  sound : im'.length = im'.nbytes
  longer : im.nbytes ≤ im'.nbytes
  same : ∀ i < im.nbytes, im'.img i = im.img i
  pdLoc : im'.pdLoc = im.pdLoc
  pdLim : im'.pdLim = im.pdLim

namespace Grows

theorem refl (sound : im.length = im.nbytes) : Grows im im := ⟨sound, Nat.le_refl _, fun _ _ => rfl, rfl, rfl⟩

theorem trans (first : Grows im im') (second : Grows im' im'') : Grows im im'' where
  sound := second.sound
  longer := Nat.le_trans first.longer second.longer
  same i before := (second.same i (Nat.lt_of_lt_of_le before first.longer)).trans (first.same i before)
  pdLoc := second.pdLoc.trans first.pdLoc
  pdLim := second.pdLim.trans first.pdLim

section

variable (sound : im.length = im.nbytes)
include sound

theorem put (count : ℕ) (source : Memory) : Grows im (im.put count source) where
  sound := congrArg (· + count) sound
  longer := Nat.le_add_right _ _
  same i before := Memory.blit_outside _ _ (.inl (by omega))
  pdLoc := rfl
  pdLim := rfl

theorem padTo (limit : ℕ) : Grows im (im.padTo limit) := put sound _ _

theorem processStart (started : im.processStart vm vaddr = some im') : Grows im im' := by
  obtain ⟨-, offset, rfl⟩ := processStart_eq started
  exact ⟨sound, Nat.le_refl _, fun _ _ => rfl, rfl, rfl⟩

theorem processEnd : Grows im im.processEnd := by
  obtain ⟨sound', longer, same, pdLoc, pdLim⟩ := padTo sound (wholeSectors im.nbytes)
  exact ⟨sound', longer, same, pdLoc, pdLim⟩

theorem writeSegment (written : im.writeSegment fp phdr = some im') : Grows im im' := by
  by_cases empty : phdr.memsz = 0
  · simp only [Image.writeSegment, empty, if_true, some.injEq] at written
    exact written ▸ refl sound
  · obtain ⟨-, rfl⟩ := writeSegment_eq written empty
    have first := padTo sound (phdr.vaddr + im.offset).toNat
    have second := put first.sound phdr.filesz.toNat fun i => fp.fgetc (phdr.offset.toNat + i)
    exact (first.trans second).trans (put second.sound _ _)

theorem addSegment (added : im.addSegment fp phdr = some im') : Grows im im' := by
  unfold Image.addSegment at added
  split at added
  · cases added
    exact refl sound
  · exact writeSegment sound added

end

theorem addSegments (phdrs : List Phdr) (sound : im.length = im.nbytes)
    (added : phdrs.foldlM (fun im phdr => im.addSegment fp phdr) im = some im') : Grows im im' := by
  induction phdrs generalizing im with
  | nil =>
    cases added
    exact refl sound
  | cons phdr phdrs ih =>
    obtain ⟨next, first, rest⟩ := bind_eq_some_iff.mp added
    have step := addSegment sound first
    exact step.trans (ih step.sound rest)

end Grows

theorem addHeaders_eq {ehdr : Ehdr} (phs : List ℕ) (later : 0 ∉ phs)
    (added : phs.foldlM (fun im ph => addHeader im vm fp ehdr ph) im = some im') :
    (phs.filterMap (readPhdr fp ehdr)).foldlM (fun im phdr => im.addSegment fp phdr) im = some im' := by
  induction phs generalizing im with
  | nil => exact added
  | cons ph phs ih =>
    obtain ⟨notFirst, rest⟩ : ph ≠ 0 ∧ 0 ∉ phs := by
      simpa [eq_comm] using later
    obtain ⟨next, step, more⟩ := bind_eq_some_iff.mp added
    obtain ⟨phdr, read, here⟩ := bind_eq_some_iff.mp step
    simp only [notFirst] at here
    rw [filterMap_cons_some read]
    exact bind_eq_some_iff.mpr ⟨next, here, ih rest more⟩

/-- A file without headers only fills up its sector. Any other starts with its first header. -/
theorem addFile_cases (added : im.addFile vm fp = some im') :
    (fp.headers = [] ∧ im' = im.processEnd) ∨
      ∃ first rest started segments, fp.headers = first :: rest ∧ im.processStart vm first.vaddr = some started ∧
        fp.headers.foldlM (fun im phdr => im.addSegment fp phdr) started = some segments ∧
        im' = segments.processEnd := by
  obtain ⟨ehdr, read, loop⟩ := bind_eq_some_iff.mp added
  obtain ⟨segments, looped, rfl⟩ := map_eq_some_iff.mp loop
  have headers : fp.headers = (range ehdr.phnum.toNat).filterMap (readPhdr fp ehdr) := by
    rw [InputFile.headers, read]
  cases count : ehdr.phnum.toNat with
  | zero =>
    rw [count] at looped headers
    cases looped
    exact .inl ⟨headers, rfl⟩
  | succ n =>
    right
    rw [count, range_succ_eq_map] at looped headers
    obtain ⟨next, step, more⟩ := bind_eq_some_iff.mp looped
    obtain ⟨first, readFirst, here⟩ := bind_eq_some_iff.mp step
    obtain ⟨started, start, segment⟩ := bind_eq_some_iff.mp here
    rw [filterMap_cons_some readFirst] at headers
    refine ⟨first, _, started, segments, headers, start, ?_, rfl⟩
    rw [headers]
    exact bind_eq_some_iff.mpr ⟨next, segment, addHeaders_eq _ (by simp) more⟩

theorem wholeSectors_mod (nbytes : ℕ) : wholeSectors nbytes % sectorSize = 0 := Nat.mul_mod_left ..

theorem le_wholeSectors (nbytes : ℕ) : nbytes ≤ wholeSectors nbytes := by
  simp only [wholeSectors, sectorSize]
  omega

theorem processEnd_nbytes (im : Image) : im.processEnd.nbytes = wholeSectors im.nbytes := by
  have := le_wholeSectors im.nbytes
  simp only [Image.processEnd, Image.padTo, Image.put]
  omega

theorem addFile_grows (sound : im.length = im.nbytes) (added : im.addFile vm fp = some im') :
    Grows im im' ∧ im'.nbytes % sectorSize = 0 := by
  rcases addFile_cases added with ⟨-, rfl⟩ | ⟨first, rest, started, segments, -, start, looped, rfl⟩
  · exact ⟨.processEnd sound, by rw [processEnd_nbytes, wholeSectors_mod]⟩
  · have begun := Grows.processStart sound start
    have filled := Grows.addSegments _ begun.sound looped
    refine ⟨(begun.trans filled).trans (.processEnd filled.sound), ?_⟩
    rw [processEnd_nbytes, wholeSectors_mod]

variable {base : ℕ} {chunks : List (Chunk Byte)}

/-- The image of a process up to now, from the sector where it starts. -/
structure Filled (base : ℕ) (chunks : List (Chunk Byte)) (im : Image) : Prop where
  sound : im.length = im.nbytes
  offset : im.offset = BitVec.ofNat 32 base - processVaddr
  location : im.dir.location = BitVec.ofNat 32 (base / sectorSize)
  started : base ≤ im.nbytes
  bounded : im.nbytes ≤ 2 ^ 33
  laid : Laid 0 chunks (im.nbytes - base) fun i => im.img (base + i)

theorem put_inside (im : Image) {count i : ℕ} (source : Memory) (behind : im.length ≤ i)
    (inside : i < im.length + count) :
    (im.put count source).img i = source (i - im.length) := Memory.blit_inside _ _ ⟨behind, inside⟩

theorem put_before (im : Image) {count i : ℕ} (source : Memory) (before : i < im.length) :
    (im.put count source).img i = im.img i := Memory.blit_outside _ _ (.inl before)

theorem phyaddr_eq (offset : im.offset = BitVec.ofNat 32 base - processVaddr)
    (behind : base ≤ (phdr.vaddr + im.offset).toNat) : (phdr.vaddr + im.offset).toNat = base + phdr.place := by
  have sum : phdr.vaddr + im.offset = BitVec.ofNat 32 base + (phdr.vaddr - processVaddr) := by
    bv_omega
  rw [sum, toNat_add, toNat_ofNat] at behind ⊢
  unfold Phdr.place
  omega

section

variable (filled : Filled base chunks im)
include filled

theorem Filled.padTo {limit : ℕ} (behind : im.nbytes ≤ limit)
    (bounded : limit ≤ 2 ^ 33) : Filled base chunks (im.padTo limit) ∧ (im.padTo limit).nbytes = limit := by
  have reaches : (im.padTo limit).nbytes = limit := by
    simp only [Image.padTo, Image.put]
    omega
  have started := filled.started
  have sound := filled.sound
  refine ⟨⟨(Grows.padTo filled.sound limit).sound, filled.offset, filled.location, by omega, by omega, ?_⟩, reaches⟩
  refine filled.laid.pad (by omega) ?_ ?_
  · intro i before
    exact put_before im _ (by omega)
  · intro i behind' inside
    exact put_inside im _ (by omega) (by omega)

/-- A segment becomes the next chunk of the image. -/
theorem Filled.writeSegment (nonempty : phdr.memsz ≠ 0)
    (fits : phdr.filesz ≤ phdr.memsz) (written : im.writeSegment fp phdr = some im') :
    Filled base (chunks ++ [fp.chunk phdr]) im' := by
  obtain ⟨behind, rfl⟩ := writeSegment_eq written nonempty
  have place := phyaddr_eq filled.offset (Nat.le_trans filled.started behind)
  obtain ⟨padded, reaches⟩ := filled.padTo behind (by omega)
  generalize im.padTo (phdr.vaddr + im.offset).toNat = before at padded reaches ⊢
  have sound := padded.sound
  have size := toNat_sub_of_le fits
  have fits' : phdr.filesz.toNat ≤ phdr.memsz.toNat := fits
  have ends : ((before.put phdr.filesz.toNat fun i => fp.fgetc (phdr.offset.toNat + i)).put
      (phdr.memsz - phdr.filesz).toNat fun _ => 0).nbytes = base + phdr.place + phdr.memsz.toNat := by
    simp only [Image.put]
    omega
  refine ⟨?_, padded.offset, padded.location, by omega, by omega, ?_⟩
  · simp [Image.put, sound]
  · have last : base + phdr.place + phdr.memsz.toNat - base = (fp.chunk phdr).finish := by
      simp only [Chunk.finish, InputFile.chunk]
      omega
    rw [ends, last]
    refine padded.laid.append ?_ ?_ ?_
    · simp only [InputFile.chunk]
      omega
    · intro i inside
      rw [put_before, put_before]
      · omega
      · simp only [Image.put]
        omega
    · intro j inside
      simp only [InputFile.chunk, InputFile.segmentByte] at inside ⊢
      split
      · next fromFile =>
        rw [put_before _ _ (by simp only [Image.put]; omega), put_inside _ _ (by omega) (by omega)]
        congr 2
        omega
      · next zero =>
        rw [put_inside]
        all_goals
          simp only [Image.put]
          omega

theorem Filled.addSegment (fits : phdr.filesz ≤ phdr.memsz) (added : im.addSegment fp phdr = some im') :
    Filled base (chunks ++ (InputFile.segments [phdr]).map fp.chunk) im' := by
  unfold Image.addSegment at added
  by_cases executable : phdr.Executable
  · rw [if_neg (by simpa [Phdr.Executable] using executable)] at added
    by_cases empty : phdr.memsz = 0
    · simp only [Image.writeSegment, empty, if_true, some.injEq] at added
      subst added
      simpa [InputFile.segments, empty] using filled
    · have kept : InputFile.segments [phdr] = [phdr] := filter_cons_of_pos (decide_eq_true ⟨executable, empty⟩)
      rw [kept]
      exact filled.writeSegment empty fits added
  · rw [if_pos (by simpa [Phdr.Executable, imp_iff_not_or] using executable)] at added
    cases added
    simpa [InputFile.segments, executable] using filled

end

theorem Filled.addSegments (phdrs : List Phdr) (filled : Filled base chunks im)
    (fits : ∀ phdr ∈ phdrs, phdr.filesz ≤ phdr.memsz)
    (added : phdrs.foldlM (fun im phdr => im.addSegment fp phdr) im = some im') :
    Filled base (chunks ++ (InputFile.segments phdrs).map fp.chunk) im' := by
  induction phdrs generalizing im chunks with
  | nil =>
    cases added
    simpa [InputFile.segments] using filled
  | cons phdr phdrs ih =>
    obtain ⟨next, first, more⟩ := bind_eq_some_iff.mp added
    obtain ⟨fit, rest⟩ := List.forall_mem_cons.mp fits
    have split : InputFile.segments (phdr :: phdrs) = InputFile.segments [phdr] ++ InputFile.segments phdrs :=
      List.filter_append [phdr] phdrs
    rw [split, List.map_append, ← List.append_assoc]
    exact ih (filled.addSegment fit first) rest more

/-- What is assumed of the file of a process. -/
structure ProcessFile (fp : InputFile) : Prop where
  first : ∃ phdr, fp.headers.head? = some phdr ∧ alignPageDown phdr.vaddr = processVaddr
  fits : ∀ phdr ∈ fp.headers, phdr.filesz ≤ phdr.memsz

/-- What the image of a whole process is, with its directory entry. -/
structure Holds (fp : InputFile) (base limit : ℕ) (img : Memory) : Prop where
  ordered : base ≤ limit
  base_mod : base % sectorSize = 0
  limit_mod : limit % sectorSize = 0
  bounded : limit ≤ 2 ^ 33
  laid : Laid 0 fp.chunks (limit - base) fun i => img (base + i)

theorem sectors_sub {limit : ℕ} (ordered : base ≤ limit) (whole : base % sectorSize = 0) (bounded : limit ≤ 2 ^ 33) :
    BitVec.ofNat 32 (limit / sectorSize) - BitVec.ofNat 32 (base / sectorSize) =
      BitVec.ofNat 32 ((limit - base) / sectorSize) := by
  simp only [sectorSize] at *
  apply eq_of_toNat_eq
  rw [toNat_sub_of_le]
  · simp only [toNat_ofNat]
    omega
  · rw [le_def, toNat_ofNat, toNat_ofNat]
    omega

theorem addFile_holds (file : ProcessFile fp) (sound : im.length = im.nbytes) (behind : im.nbytes ≠ 0)
    (bounded : im.nbytes ≤ 2 ^ 33) (added : im.addFile true fp = some im') :
    Holds fp im.nbytes im'.nbytes im'.img ∧
      im'.dir =
        ⟨BitVec.ofNat 32 (im.nbytes / sectorSize), BitVec.ofNat 32 ((im'.nbytes - im.nbytes) / sectorSize)⟩ := by
  obtain ⟨first, head, page⟩ := file.first
  rcases addFile_cases added with ⟨none, -⟩ | ⟨first', rest, started, segments, headers, start, looped, rfl⟩
  · rw [none] at head
    cases head
  · obtain rfl : first' = first := by
      rw [headers] at head
      exact some.inj head
    have offset := processStart_offset start behind
    obtain ⟨whole, offset', rfl⟩ := processStart_eq start
    have begun : Filled im.nbytes []
        { im with dir.location := BitVec.ofNat 32 (im.nbytes / sectorSize), offset := offset' } := by
      refine ⟨sound, ?_, rfl, Nat.le_refl _, bounded, ?_⟩
      · rw [offset, page]
      · simp only [Nat.sub_self]
        exact Laid.nil
    have filled := begun.addSegments _ file.fits looped
    have limit : wholeSectors segments.nbytes ≤ 2 ^ 33 := by
      have := filled.bounded
      simp only [wholeSectors, sectorSize]
      omega
    obtain ⟨ended, reaches⟩ := filled.padTo (le_wholeSectors _) limit
    have started := ended.started
    refine ⟨⟨started, whole, ?_, ended.bounded, ended.laid⟩, ?_⟩
    · rw [processEnd_nbytes, wholeSectors_mod]
    · have size := sectors_sub started whole ended.bounded
      rw [processEnd_nbytes, ← reaches, ← size, ← ended.location]
      rfl

end MicroOs.Disk
