import Cheshire.ElfLoaderEffect

/-!
# What `read_elf` does with any file

A segment stops the program if its range fails the assertion, or if it has too many bytes for an
`int` to count (`StopsAt`). All other segments are recorded, unless they have no memory (`Loads`).
The errors of the section headers are printed after that.

**Theorem (`runs_readElf`).** A file that `read_elf` accepts gets the result 0 and what `load_elf`
does (`runs_loadElf`); one that it does not gets an error (`runs_readElf_refused`).
-/

namespace Cheshire.ElfLoader

open Lib Cmd

/-! ## Files -/

/-- A segment with bytes in the file. -/
structure Segment where
  paddr : U64
  memsz : U64
  data : List Byte
deriving DecidableEq

namespace File

variable (f : File) (T : Layout)

def phdr (i : ℕ) : U64 := f.field 0 T.ePhoff + BitVec.ofNat 64 (i * T.sizeofPhdr)

def phnum : ℕ := (f.field 0 T.ePhnum).toNat

def segment (i : ℕ) : Option Segment :=
  if f.field (f.phdr T i) T.pType = 1 ∧ f.field (f.phdr T i) T.pFilesz ≠ 0 then
    some ⟨f.field (f.phdr T i) T.pPaddr, f.field (f.phdr T i) T.pMemsz,
      f.slice (f.field (f.phdr T i) T.pOffset) (f.field (f.phdr T i) T.pFilesz).toNat⟩
  else none

/-- The segments of the first `n` program headers. -/
def segments (n : ℕ) : List Segment := (List.range n).filterMap (f.segment T)

end File

/-- The two classes of ELF files. -/
inductive Class
  | c32 | c64
deriving DecidableEq, Repr

namespace Class

def layout : Class → Layout
  | c32 => elf32
  | c64 => elf64

/-- `e_ident[4]`. -/
def ident : Class → Byte
  | c32 => 1
  | c64 => 2

end Class

/-- The globals with one more segment. -/
def Globals.record (g : Globals) (p : Segment) : Globals :=
  { g with
    sections := g.sections ++ [(p.paddr, p.memsz)]
    mems := insert g.mems p.paddr p.data }

/-! ## Segments -/

namespace File

variable (f : File) (T : Layout) (i : ℕ)

def RangeIn (a : U64) (n : ℕ) : Prop := ∀ j < n, a + BitVec.ofNat 64 j < f.size

/-- Program header `i` is of a segment that the loader records. -/
def Loads : Prop := f.field (f.phdr T i) T.pType = 1 ∧ f.field (f.phdr T i) T.pMemsz ≠ 0 ∧
  f.field (f.phdr T i) T.pFilesz ≠ 0

/-- The assertion about its range fails. -/
def Asserts : Prop :=
  f.size < T.add (f.field (f.phdr T i) T.pOffset) (f.field (f.phdr T i) T.pFilesz)

/-- The segment is too large for the counter of `write`. -/
def Overflows : Prop := 2 ^ 31 ≤ (f.field (f.phdr T i) T.pFilesz).toNat

/-- The loop ends the program here. -/
def StopsAt : Prop := f.Loads T i ∧ (f.Asserts T i ∨ f.Overflows T i)

/-- The bytes that `write` takes are in the file. -/
def DataIn : Prop := f.RangeIn (f.field (f.phdr T i) T.pOffset)
  (min (f.field (f.phdr T i) T.pFilesz).toNat (2 ^ 31))

def BytesIn : Prop := f.FieldIn (f.phdr T i) T.pOffset ∧ (¬f.Asserts T i →
  f.FieldIn (f.phdr T i) T.pPaddr ∧ f.FieldIn (f.phdr T i) T.pMemsz ∧ f.DataIn T i)

/-- All that is read for program header `i` is in the file. -/
def SegmentIn : Prop := f.FieldIn (f.phdr T i) T.pType ∧ (f.field (f.phdr T i) T.pType = 1 →
  f.FieldIn (f.phdr T i) T.pMemsz ∧ (f.field (f.phdr T i) T.pMemsz ≠ 0 →
    f.FieldIn (f.phdr T i) T.pFilesz ∧ (f.field (f.phdr T i) T.pFilesz ≠ 0 → f.BytesIn T i) ∧
      (f.StopsAt T i ∨ (f.field (f.phdr T i) T.pFilesz < f.field (f.phdr T i) T.pMemsz →
        f.FieldIn (f.phdr T i) T.pPaddr))))

/-- The segments that the loader records. -/
def loaded : Option Segment := (f.segment T i).filter fun p => p.memsz ≠ 0

end File

section Segments

variable {f : File} {T : Layout} {i : ℕ}

theorem runs_data (buf len : U64) : Runs f (pushBack f buf len.toNat 0)
    ⟨f.slice buf len.toNat, 2 ^ 31 ≤ len.toNat, id, False,
      f.RangeIn buf (min len.toNat (2 ^ 31))⟩ := by
  refine (runs_pushBack buf (Nat.two_pow_pos 31)).congr ?_ ?_ (fun _ _ => rfl) (fun _ => Iff.rfl) ?_
  · rw [File.slice, List.range_eq_range']
  · rw [Nat.zero_add]
  · simp only [Nat.zero_le, true_imp_iff, Nat.zero_add]
    rfl

theorem runs_write (address buf len : U64) : Runs f (write f address len buf)
    ⟨(), 2 ^ 31 ≤ len.toNat,
      fun g => { g with mems := insert g.mems address (f.slice buf len.toNat) }, False,
      f.RangeIn buf (min len.toNat (2 ^ 31))⟩ := by
  have hboth : Runs f (write f address len buf) (Effect.andThen _ _) :=
    (runs_data buf len).bind (Runs.setGlobals fun g =>
      { g with mems := insert g.mems address (f.slice buf len.toNat) })
  exact hboth.congr rfl (or_iff_left not_false) (fun _ _ => rfl) (fun _ => or_self_iff)
    (and_iff_left (.inr trivial))

theorem runs_warnZeros (ph memsz filesz : U64) : Runs f (warnZeros T f ph memsz filesz)
    (.reading () (filesz < memsz → f.FieldIn ph T.pPaddr)) := by
  refine Runs.ite (fun hlt => ?_) fun hge => ?_
  · have hprint : Runs f (get f ph T.pPaddr >>= fun paddr =>
        print (.zeroBytes paddr (memsz - filesz))) ⟨(), _, _, _, _⟩ :=
      (runs_get ph T.pPaddr).read (Runs.print _)
    exact hprint.congr rfl Iff.rfl (fun _ _ => rfl) (fun _ => iff_of_false nofun not_false)
      ((and_iff_left trivial).trans (imp_iff_right hlt).symm)
  · exact Runs.nothing () fun hlt => absurd hlt hge

/-- A segment is recorded before its bytes are taken. -/
theorem runs_record (paddr memsz offset filesz : U64) :
    Runs f (do
        modify fun s => { s with globals.sections := s.globals.sections ++ [(paddr, memsz)] }
        write f paddr filesz offset)
      ⟨(), 2 ^ 31 ≤ filesz.toNat,
        fun g => g.record ⟨paddr, memsz, f.slice offset filesz.toNat⟩, False,
        f.RangeIn offset (min filesz.toNat (2 ^ 31))⟩ := by
  exact Runs.update (fun g => { g with sections := g.sections ++ [(paddr, memsz)] })
    (runs_write paddr offset filesz)

theorem loaded_of_loads (h : f.Loads T i) : f.loaded T i =
    some ⟨f.field (f.phdr T i) T.pPaddr, f.field (f.phdr T i) T.pMemsz,
      f.slice (f.field (f.phdr T i) T.pOffset) (f.field (f.phdr T i) T.pFilesz).toNat⟩ := by
  rw [File.loaded, File.segment, if_pos ⟨h.1, h.2.2⟩]
  exact Option.filter_some_pos (decide_eq_true h.2.1)

theorem loaded_of_not_loads (h : ¬f.Loads T i) : f.loaded T i = none := by
  rw [File.loaded, File.segment]
  by_cases hsome : f.field (f.phdr T i) T.pType = 1 ∧ f.field (f.phdr T i) T.pFilesz ≠ 0
  · have hmemsz : f.field (f.phdr T i) T.pMemsz = 0 :=
      not_not.mp fun hne => h ⟨hsome.1, hne, hsome.2⟩
    rw [if_pos hsome]
    exact Option.filter_some_neg (by simpa using hmemsz)
  · rw [if_neg hsome]
    rfl

theorem runs_loadBytes (hne : f.field (f.phdr T i) T.pFilesz ≠ 0) :
    Runs f (loadBytes T f (f.phdr T i) i (f.field (f.phdr T i) T.pFilesz))
      ⟨(), f.Asserts T i ∨ f.Overflows T i, fun g => g.record
        ⟨f.field (f.phdr T i) T.pPaddr, f.field (f.phdr T i) T.pMemsz,
          f.slice (f.field (f.phdr T i) T.pOffset) (f.field (f.phdr T i) T.pFilesz).toNat⟩, False,
        f.BytesIn T i⟩ := by
  refine Runs.ite (fun hzero => absurd hzero hne) fun _ => ?_
  refine (runs_get _ _).read (Runs.ite (fun hassert => ?_) fun hgo => ?_)
  · exact (Runs.throw () _).congr rfl (iff_of_true trivial (.inl hassert))
      (fun hgo => absurd (.inl hassert) hgo) (fun _ => Iff.rfl)
      (iff_of_true trivial fun hgo => absurd hassert hgo)
  · refine Runs.congr (e := ⟨(), f.Overflows T i, _, False, _ ∧ _ ∧ f.DataIn T i⟩)
      ((runs_get _ _).read ((runs_get _ _).read (runs_record _ _ _ _))) rfl
      (or_iff_right hgo).symm (fun _ _ => rfl) (fun _ => Iff.rfl) (imp_iff_right hgo).symm

/-- The bytes of a segment with memory. -/
theorem runs_bytes (htype : f.field (f.phdr T i) T.pType = 1)
    (hmemsz : f.field (f.phdr T i) T.pMemsz ≠ 0) :
    Runs f (loadBytes T f (f.phdr T i) i (f.field (f.phdr T i) T.pFilesz))
      ⟨(), f.StopsAt T i, fun g => (f.loaded T i).toList.foldl Globals.record g, False,
        f.field (f.phdr T i) T.pFilesz ≠ 0 → f.BytesIn T i⟩ := by
  by_cases hfilesz : f.field (f.phdr T i) T.pFilesz = 0
  · have hno : ¬f.Loads T i := fun h => h.2.2 hfilesz
    rw [loadBytes, if_pos hfilesz, loaded_of_not_loads hno]
    exact (Runs.pure ()).congr rfl (iff_of_false not_false fun h => hno h.1) (fun _ _ => rfl)
      (fun _ => Iff.rfl) (iff_of_true trivial fun h => absurd hfilesz h)
  · have hloads : f.Loads T i := ⟨htype, hmemsz, hfilesz⟩
    rw [loaded_of_loads hloads]
    exact (runs_loadBytes hfilesz).congr rfl (and_iff_right hloads).symm (fun _ _ => rfl)
      (fun _ => Iff.rfl) (imp_iff_right hfilesz).symm

/-- What the loop does for program header `i`. -/
theorem runs_loadSegment (i : ℕ) : Runs f (loadSegment T f (f.field 0 T.ePhoff) i)
    ⟨(), f.StopsAt T i, fun g => (f.loaded T i).toList.foldl Globals.record g, False,
      f.SegmentIn T i⟩ := by
  have hskip (h : ¬f.Loads T i) {P : Prop} (hP : P) : Runs f (pure ())
      ⟨(), f.StopsAt T i, fun g => (f.loaded T i).toList.foldl Globals.record g, False, P⟩ := by
    rw [loaded_of_not_loads h]
    exact (Runs.pure ()).congr rfl (iff_of_false not_false fun hstop => h hstop.1) (fun _ _ => rfl)
      (fun _ => Iff.rfl) (iff_of_true trivial hP)
  refine (runs_get _ _).read (Runs.ite (fun htype => ?_) fun htype => ?_)
  · refine Runs.inFile_iff ((runs_get _ _).read (Runs.ite (fun hmemsz => ?_) fun hmemsz => ?_))
      (imp_iff_right htype).symm
    · exact hskip (fun h => h.2.1 hmemsz) fun h => absurd hmemsz h
    · refine Runs.inFile_iff ((runs_get _ _).read ?_) (imp_iff_right hmemsz).symm
      have hboth : Runs f (_ >>= fun _ => warnZeros T f (f.phdr T i)
          (f.field (f.phdr T i) T.pMemsz) (f.field (f.phdr T i) T.pFilesz)) (Effect.andThen _ _) :=
        (runs_bytes htype hmemsz).bind (runs_warnZeros _ _ _)
      exact hboth.congr rfl (or_iff_left not_false) (fun _ _ => rfl) (fun _ => or_self_iff) Iff.rfl
  · exact hskip (fun h => htype h.1) fun h => absurd h htype

end Segments

/-! ## Section headers -/

namespace File

variable (f : File) (T : Layout)

def shdr (i : ℕ) : U64 := f.field 0 T.eShoff + BitVec.ofNat 64 (i * T.sizeofShdr)

/-- The end of the section headers, as it is computed. -/
def shdrEnd : U64 := f.field 0 T.eShoff + f.field 0 T.eShnum * BitVec.ofNat 64 T.sizeofShdr

/-- The header of the name table. -/
def namesHdr : U64 := f.field 0 T.eShoff + f.field 0 T.eShstrndx * BitVec.ofNat 64 T.sizeofShdr

def nameTable : U64 := f.field (f.namesHdr T) T.shOffset

def nameTableEnd : U64 := T.add (f.nameTable T) (f.field (f.namesHdr T) T.shSize)

/-- The section headers are found to be in the file, and so is the name table's header in them. -/
def HeadersPass : Prop :=
  ¬f.size < f.shdrEnd T ∧ ¬f.field 0 T.eShnum ≤ f.field 0 T.eShstrndx

/-- No error is printed for the section headers. -/
def SectionsPass : Prop := f.HeadersPass T ∧ ¬f.size < f.nameTableEnd T

/-- The name of section `i`. -/
def name (i : ℕ) : U64 := f.nameTable T + f.field (f.shdr T i) T.shName

/-- What the two comparisons of the name of section `i` look at is in the file. -/
def NameIn (i : ℕ) : Prop := f.ComparedIn (f.name T i) strtab ∧
  (f.agrees (f.name T i) strtab = false → f.ComparedIn (f.name T i) symtab)

/-- All that is read for section `i` is in the file. -/
def SectionIn (i : ℕ) : Prop :=
  f.FieldIn (f.namesHdr T) T.shSize ∧ f.FieldIn (f.shdr T i) T.shName ∧ f.NameIn T i ∧
    (f.agrees (f.name T i) strtab = true ∨ f.agrees (f.name T i) symtab = true →
      f.FieldIn (f.shdr T i) T.shOffset)

/-- All that is read of the section headers and of the names is in the file. -/
def SectionsIn : Prop := f.HeadersPass T →
  f.FieldIn (f.namesHdr T) T.shOffset ∧ f.FieldIn (f.namesHdr T) T.shSize ∧
    (¬f.size < f.nameTableEnd T → ∀ i < (f.field 0 T.eShnum).toNat, f.SectionIn T i)

end File

section Sections

variable {f : File} {T : Layout}

theorem runs_found {a : U64} {x : Field} {m : U64 → Msg} (hm : ∀ off, (m off).isError = false) :
    Runs f (get f a x >>= fun off => print (m off)) (.reading () (f.FieldIn a x)) := by
  have hprint : Runs f (get f a x >>= fun off => print (m off)) ⟨(), _, _, _, _⟩ :=
    (runs_get a x).read (Runs.print _)
  exact hprint.congr rfl Iff.rfl (fun _ _ => rfl)
    (fun _ => iff_of_false (Bool.eq_false_iff.mp (hm _)) not_false) (and_iff_left trivial)

theorem runs_loadName (i : ℕ) :
    Runs f (loadName T f (f.field 0 T.eShoff) (f.namesHdr T) (f.nameTable T) i)
      (.reading () (f.SectionIn T i)) := by
  have hread : Runs f (loadName T f (f.field 0 T.eShoff) (f.namesHdr T) (f.nameTable T) i)
      ⟨(), False, id, False, f.FieldIn (f.namesHdr T) T.shSize ∧ f.FieldIn (f.shdr T i) T.shName ∧
        f.ComparedIn (f.name T i) strtab ∧
        (f.agrees (f.name T i) strtab = true → f.FieldIn (f.shdr T i) T.shOffset) ∧
        (f.agrees (f.name T i) strtab = false → f.ComparedIn (f.name T i) symtab ∧
          (f.agrees (f.name T i) symtab = true → f.FieldIn (f.shdr T i) T.shOffset))⟩ := by
    refine (runs_get _ _).read ((runs_get _ _).read ((runs_compare _ _).read
      (Runs.ite (fun hstr => ?_) fun hstr => ?_)))
    · refine (runs_found fun _ => rfl).inFile_iff ?_
      have hne : f.agrees (f.name T i) strtab ≠ false := fun h =>
        Bool.noConfusion (hstr.symm.trans h)
      exact ⟨fun h => ⟨fun _ => h, fun h' => absurd h' hne⟩, fun h => h.1 hstr⟩
    · have hstr' := Bool.eq_false_iff.mpr hstr
      refine Runs.inFile_iff ((runs_compare _ _).read (Runs.ite (fun hsym => ?_) fun hsym => ?_))
        ⟨fun h => ⟨fun h' => absurd h' hstr, fun _ => h⟩, fun h => h.2 hstr'⟩
      · exact (runs_found fun _ => rfl).inFile_iff (imp_iff_right hsym).symm
      · exact Runs.nothing () fun h => absurd h hsym
  refine hread.inFile_iff ?_
  simp only [File.SectionIn, File.NameIn]
  generalize f.agrees (f.name T i) strtab = isStrtab
  cases isStrtab with
  | false =>
    simp only [Bool.false_eq_true, false_imp_iff, true_imp_iff, true_and, false_or, and_assoc]
  | true => simp only [Bool.true_eq_false, false_imp_iff, true_imp_iff, and_true, true_or]

/-- What `loadNames` does. -/
theorem runs_loadNames (h : f.HeaderIn T) :
    Runs f (loadNames T f) ⟨(), False, id, ¬f.SectionsPass T, f.SectionsIn T⟩ := by
  refine Runs.readIn h.eShoff (Runs.readIn h.eShnum (Runs.ite (fun hend => ?_) fun hend => ?_))
  · exact Runs.error rfl (fun hpass => hpass.1.1 hend) fun hpass => absurd hend hpass.1
  refine Runs.readIn h.eShstrndx (Runs.ite (fun hindex => ?_) fun hindex => ?_)
  · exact Runs.error rfl (fun hpass => hpass.1.2 hindex) fun hpass => absurd hindex hpass.2
  have hheaders : f.HeadersPass T := ⟨hend, hindex⟩
  refine Runs.inFile_iff ((runs_get _ _).read ((runs_get _ _).read
    (Runs.ite (fun htable => ?_) fun htable => ?_))) (imp_iff_right hheaders).symm
  · exact Runs.error rfl (fun hpass => hpass.2 htable) fun hpass => absurd htable hpass
  · exact (Runs.forRead fun i _ => runs_loadName i).congr rfl Iff.rfl (fun _ _ => rfl)
      (fun _ => iff_of_false not_false fun hpass => hpass ⟨hheaders, htable⟩)
      (imp_iff_right htable).symm

end Sections

/-! ## `load_elf` -/

namespace File

variable (f : File) (T : Layout)

/-- The end of the program headers, as it is computed. -/
def phdrEnd : U64 := f.field 0 T.ePhoff + f.field 0 T.ePhnum * BitVec.ofNat 64 T.sizeofPhdr

/-- A segment ends the program. -/
def Stops : Prop := ∃ i < f.phnum T, f.StopsAt T i

/-- The segments that the loader records, in order. -/
def loads : List Segment := (f.segments T (f.phnum T)).filter fun p => p.memsz ≠ 0

/-- All that is read for the segments, up to the first that stops the program, is in the file. -/
def SegmentsIn : Prop := ∀ i < f.phnum T, (∀ j < i, ¬f.StopsAt T j) → f.SegmentIn T i

end File

section LoadElf

variable {f : File} {T : Layout}

theorem foldl_loaded (is : List ℕ) (g : Globals) :
    is.foldl (fun g i => (f.loaded T i).toList.foldl Globals.record g) g =
      ((is.filterMap (f.segment T)).filter fun p => p.memsz ≠ 0).foldl Globals.record g := by
  rw [List.filter_filterMap, List.foldl_filterMap]
  refine congrArg (fun step => is.foldl step g) (funext fun g => funext fun i => ?_)
  unfold File.loaded
  cases (f.segment T i).filter fun p => decide (p.memsz ≠ 0) with
  | none => rfl
  | some p => rfl

theorem runs_loadElf_rejected (h : f.HeaderIn T) (hend : f.size < f.phdrEnd T) :
    Runs f (loadElf T f) ⟨(), False, id, True, True⟩ := by
  refine Runs.readIn h.ePhoff (Runs.readIn h.ePhnum (Runs.ite (fun _ => ?_) fun hgo => ?_))
  · exact Runs.error rfl trivial trivial
  · exact absurd hend hgo

/-- What `load_elf` does. -/
theorem runs_loadElf (h : f.HeaderIn T) (hend : ¬f.size < f.phdrEnd T) :
    Runs f (loadElf T f) ⟨(), f.Stops T,
      fun g => (f.loads T).foldl Globals.record { g with entry := f.field 0 T.eEntry },
      ¬f.SectionsPass T, f.SegmentsIn T ∧ (f.Stops T ∨ f.SectionsIn T)⟩ := by
  refine Runs.readIn h.ePhoff (Runs.readIn h.ePhnum (Runs.ite (fun hout => absurd hout hend)
    fun _ => Runs.readIn h.eEntry ?_))
  have hsegments : Runs f (Cmd.forStep (f.phnum T) 1 (loadSegment T f (f.field 0 T.ePhoff))
      (f.phnum T) 0) ⟨(), f.Stops T, fun g => (f.loads T).foldl Globals.record g, False,
        f.SegmentsIn T⟩ :=
    (Runs.forStep fun i _ => runs_loadSegment i).congr rfl Iff.rfl (fun _ g => foldl_loaded _ g)
      (fun _ => Iff.rfl) Iff.rfl
  have hboth : Runs f (_ >>= fun _ => loadNames T f) (Effect.andThen _ _) :=
    hsegments.bind (runs_loadNames h)
  have hload : Runs f (_ >>= fun _ => loadNames T f)
      ⟨(), f.Stops T, fun g => (f.loads T).foldl Globals.record g, ¬f.SectionsPass T,
        f.SegmentsIn T ∧ (f.Stops T ∨ f.SectionsIn T)⟩ :=
    hboth.congr rfl (or_iff_left not_false) (fun _ _ => rfl) (fun _ => or_iff_right not_false)
      Iff.rfl
  exact Runs.update (fun g => { g with entry := f.field 0 T.eEntry }) (hload.info rfl)

end LoadElf

/-! ## Layouts -/

/-- The fields are in their headers. -/
structure Layout.Laid (T : Layout) : Prop where
  ehdr : ∀ x ∈ [T.eEntry, T.ePhoff, T.eShoff, T.ePhnum, T.eShnum, T.eShstrndx], x.off + x.width ≤ 64
  counts : T.ePhnum.width = 2 ∧ T.eShnum.width = 2
  phdr : ∀ x ∈ [T.pType, T.pOffset, T.pPaddr, T.pFilesz, T.pMemsz], x.off + x.width ≤ T.sizeofPhdr
  shdr : ∀ x ∈ [T.shName, T.shOffset, T.shSize], x.off + x.width ≤ T.sizeofShdr
  pType : T.pType.off = 0 ∧ 0 < T.pType.width
  shName : T.shName.off = 0 ∧ 0 < T.shName.width
  sizes : T.sizeofPhdr ≤ 64 ∧ T.sizeofShdr ≤ 64

theorem Class.laid (c : Class) : c.layout.Laid := by
  cases c with
  | c32 => exact ⟨by decide, by decide, by decide, by decide, by decide, by decide, by decide⟩
  | c64 => exact ⟨by decide, by decide, by decide, by decide, by decide, by decide, by decide⟩

section Laid

variable {f : File} {T : Layout} {a : U64} {x : Field}

theorem fieldIn_of_le (h : a.toNat + x.off + x.width ≤ f.size.toNat) : f.FieldIn a x := by
  intro i hi
  have hsize := f.size.isLt
  rw [BitVec.lt_def, BitVec.toNat_add, BitVec.toNat_ofNat]
  omega

theorem headerIn (h : T.Laid) (hsize : 64 ≤ f.size.toNat) : f.HeaderIn T := by
  have hfield : ∀ x ∈ [T.eEntry, T.ePhoff, T.eShoff, T.ePhnum, T.eShnum, T.eShstrndx],
      f.FieldIn 0 x := by
    intro x hx
    have hle := h.ehdr x hx
    have hzero : (0 : U64).toNat = 0 := rfl
    refine fieldIn_of_le ?_
    rw [hzero]
    omega
  constructor <;> exact hfield _ (by simp)

end Laid

/-! ## `read_elf` -/

namespace File

/-- The file is loaded as one of this class. -/
structure Accepted (f : File) (c : Class) : Prop where
  opens : f.opens = true
  stats : f.stats = true
  large : 64 ≤ f.size.toNat
  maps : f.maps = true
  signature : f.signature c.ident = true

end File

section ReadElf

variable {f : File} {c : Class}

/-- The class of a file is determined by its signature. -/
theorem signature_unique {c c' : Class} (h : f.signature c.ident = true)
    (h' : f.signature c'.ident = true) : c = c' := by
  have hident : c.ident = c'.ident := (f.signature_cls h).symm.trans (f.signature_cls h')
  cases c with
  | c32 =>
    cases c' with
    | c32 => rfl
    | c64 => exact absurd hident (by decide)
  | c64 =>
    cases c' with
    | c32 => exact absurd hident (by decide)
    | c64 => rfl

theorem runs_isElf (cls : Byte) :
    ∃ P, Runs f (isElf f cls) (.reading (f.signature cls) P) := ⟨_, runs_compare 0 _⟩

/-- A result after a command. -/
theorem Runs.result {x : M Unit} {S F P : Prop} {p : Globals → Globals}
    (hx : Runs f x ⟨(), S, p, F, P⟩) (r : Char8) :
    Runs f (x >>= fun _ => Pure.pure r) ⟨r, S, p, F, P⟩ := by
  have hboth : Runs f (x >>= fun _ => Pure.pure r) (Effect.andThen _ _) := hx.bind (Runs.pure r)
  exact hboth.congr rfl (or_iff_left not_false) (fun _ _ => rfl) (fun _ => or_iff_left not_false)
    (and_iff_left (.inr trivial))

/-- An error that `read_elf` returns. -/
theorem runs_refuse {m : Msg} (hm : m.isError = true) :
    Runs f (print m >>= fun _ => pure (-1 : Char8)) ⟨-1, False, id, True, True⟩ :=
  (Runs.error hm trivial trivial).result (-1)

/-- A mapped file is handed to `load_elf`. -/
theorem runs_readMapped (hsig : f.signature c.ident = true) {S F P : Prop}
    {p : Globals → Globals} (hload : Runs f (loadElf c.layout f) ⟨(), S, p, F, P⟩) :
    ∃ Q, Runs f (readMapped f) ⟨0, S, p, F, Q⟩ := by
  obtain ⟨Q₁, h32⟩ := runs_isElf (f := f) 1
  obtain ⟨Q₂, h64⟩ := runs_isElf (f := f) 2
  cases c with
  | c32 =>
    refine ⟨Q₁ ∧ P, Runs.info rfl (h32.read (Runs.ite (fun _ => hload.result 0) fun hno => ?_))⟩
    exact absurd hsig hno
  | c64 =>
    refine ⟨Q₁ ∧ Q₂ ∧ P, Runs.info rfl (h32.read (Runs.ite (fun hyes => ?_) fun _ => ?_))⟩
    · exact Class.noConfusion (signature_unique (c := .c32) hyes hsig)
    · exact h64.read (Runs.ite (fun _ => hload.result 0) fun hno => absurd hsig hno)

theorem not_small : ¬f.size < BitVec.ofNat 64 elf64.sizeofEhdr ↔ 64 ≤ f.size.toNat := Nat.not_lt

theorem runs_readElf (h : f.Accepted c) {S F P : Prop} {p : Globals → Globals}
    (hload : Runs f (loadElf c.layout f) ⟨(), S, p, F, P⟩) :
    ∃ Q, Runs f (readElf f) ⟨0, S, p, F, Q⟩ := by
  obtain ⟨Q, hrun⟩ := runs_readMapped h.signature hload
  refine ⟨Q, ?_⟩
  rw [readElf, h.opens, h.stats, h.maps, if_neg (by decide), if_neg (by decide),
    if_neg (not_small.mpr h.large), if_neg (by decide)]
  exact hrun

/-- A mapped file with no signature. -/
theorem runs_readMapped_refused (h : ∀ c : Class, f.signature c.ident = false) :
    ∃ Q, Runs f (readMapped f) ⟨-1, False, id, True, Q⟩ := by
  obtain ⟨Q₁, h32⟩ := runs_isElf (f := f) 1
  obtain ⟨Q₂, h64⟩ := runs_isElf (f := f) 2
  refine ⟨Q₁ ∧ Q₂ ∧ True, Runs.info rfl (h32.read (Runs.ite (fun hyes => ?_) fun _ =>
    h64.read (Runs.ite (fun hyes => ?_) fun _ => runs_refuse rfl)))⟩
  · exact Bool.noConfusion (hyes.symm.trans (h .c32))
  · exact Bool.noConfusion (hyes.symm.trans (h .c64))

/-- What `read_elf` refuses, it refuses with an error and before it changes anything. -/
theorem runs_readElf_refused (h : ∀ c, ¬f.Accepted c) :
    ∃ Q, Runs f (readElf f) ⟨-1, False, id, True, Q⟩ := by
  by_cases haccess : f.opens = true ∧ f.stats = true ∧ 64 ≤ f.size.toNat ∧ f.maps = true
  · obtain ⟨hopens, hstats, hlarge, hmaps⟩ := haccess
    obtain ⟨Q, hrun⟩ := runs_readMapped_refused (f := f) fun c =>
      Bool.eq_false_iff.mpr fun hsig => h c ⟨hopens, hstats, hlarge, hmaps, hsig⟩
    refine ⟨Q, ?_⟩
    rw [readElf, hopens, hstats, hmaps, if_neg (by decide), if_neg (by decide),
      if_neg (not_small.mpr hlarge), if_neg (by decide)]
    exact hrun
  · refine ⟨True, Runs.ite (fun _ => runs_refuse rfl) fun hopens => Runs.ite
      (fun _ => runs_refuse rfl) fun hstats => Runs.ite (fun _ => runs_refuse rfl) fun hlarge =>
      Runs.ite (fun _ => runs_refuse rfl) fun hmaps => ?_⟩
    refine absurd ⟨?_, ?_, not_small.mp hlarge, ?_⟩ haccess
    · simpa using hopens
    · simpa using hstats
    · simpa using hmaps

end ReadElf

end Cheshire.ElfLoader
