import Cheshire.ElfLoaderProof

/-!
# What the loader reads

The loader checks the sums of offsets and sizes against the size of the file. A sum that wraps
around passes, and no check covers the names of sections: `max_len` is computed and not used.

**Theorem (`loadElf_reads_iff`).** All bytes that `load_elf` reads are in the file exactly if the
tables, the segments and the compared parts of the names are (`Contained`), each as far as it is
reached.
-/

namespace Cheshire.ElfLoader

open Lib Cmd

/-! ## Ranges -/

section Ranges

variable {f : File} {a : U64} {x : Field} {n : ℕ}

theorem rangeIn_iff (hn : 0 < n) : f.RangeIn a n ↔ a.toNat + n ≤ f.size.toNat := by
  have hsize := f.size.isLt
  constructor
  · intro h
    by_contra hout
    have hfirst : a.toNat < f.size.toNat := by
      have h0 := h 0 hn
      rwa [BitVec.add_zero, BitVec.lt_def] at h0
    -- the byte at the end of the file
    have hend := h (f.size.toNat - a.toNat) (by omega)
    rw [BitVec.lt_def, BitVec.toNat_add, BitVec.toNat_ofNat] at hend
    omega
  · intro h j hj
    rw [BitVec.lt_def, BitVec.toNat_add, BitVec.toNat_ofNat]
    omega

/-- A field at the start of a header outside the file. -/
theorem lt_of_fieldIn (hx : x.off = 0 ∧ 0 < x.width) (h : f.FieldIn a x) :
    a.toNat < f.size.toNat := by
  have hfirst := h 0 hx.2
  have hzero : a + BitVec.ofNat 64 (x.off + 0) = a := by
    rw [hx.1]
    exact BitVec.add_zero a
  rwa [hzero, BitVec.lt_def] at hfirst

/-- A field of entry `i` of a table with entries of `n` bytes. -/
theorem entry_fieldIn {base : U64} {count i : ℕ} (h : base.toNat + count * n ≤ f.size.toNat)
    (hi : i < count) (hx : x.off + x.width ≤ n) : f.FieldIn (base + BitVec.ofNat 64 (i * n)) x := by
  have hsize := f.size.isLt
  have hentry : (i + 1) * n ≤ count * n := Nat.mul_le_mul_right n hi
  rw [Nat.add_mul, Nat.one_mul] at hentry
  refine fieldIn_of_le ?_
  rw [BitVec.toNat_add, BitVec.toNat_ofNat]
  omega

/-- A name with room for all that it is compared with. -/
theorem comparedIn_of_le {bs : List Byte} (h : a.toNat + bs.length ≤ f.size.toNat) :
    f.ComparedIn a bs := by
  induction bs generalizing a with
  | nil => trivial
  | cons b bs ih =>
    rw [List.length_cons] at h
    have hsize := f.size.isLt
    refine ⟨BitVec.lt_def.2 (by omega), fun _ => ih ?_⟩
    rw [BitVec.toNat_add, show (1 : U64).toNat = 1 from rfl]
    omega

/-- A table that passes its check and starts in the file does not wrap around. -/
theorem table_in {base count : U64} (hsize : f.size.toNat < 2 ^ 63) (hcount : count.toNat < 2 ^ 16)
    (hn : n ≤ 64) (hend : ¬f.size < base + count * BitVec.ofNat 64 n)
    (hbase : base.toNat ≤ f.size.toNat) : base.toNat + count.toNat * n ≤ f.size.toNat := by
  have hmul : count.toNat * n ≤ 2 ^ 16 * 64 := Nat.mul_le_mul hcount.le hn
  have hentry : n % 2 ^ 64 = n := Nat.mod_eq_of_lt (by omega)
  rw [BitVec.lt_def, BitVec.toNat_add, BitVec.toNat_mul, BitVec.toNat_ofNat, hentry] at hend
  omega

/-- The first entry of a table is at its start. -/
theorem entry_zero (base : U64) (n : ℕ) : base + BitVec.ofNat 64 (0 * n) = base := by
  rw [Nat.zero_mul]
  exact BitVec.add_zero base

/-- A count of headers has 16 bits. -/
theorem count_lt (hx : x.width = 2) (a : U64) : (f.field a x).toNat < 2 ^ 16 := by
  have hlt := le_lt x.width fun i => f.bytes (a + BitVec.ofNat 64 (x.off + i))
  rw [hx] at hlt
  rw [File.field, BitVec.toNat_ofNat, hx]
  omega

end Ranges

/-! ## The condition -/

/-- All that `load_elf` reads is in the file. -/
def ReadsInFile (T : Layout) (f : File) (g : Globals) : Prop :=
  ∀ o ∈ (stateAfter (loadElf T f) ⟨g, [], []⟩).reads, o < f.size

namespace File

variable (f : File) (T : Layout)

/-- The program headers are in the file. -/
def PhdrsIn : Prop := (f.field 0 T.ePhoff).toNat + f.phnum T * T.sizeofPhdr ≤ f.size.toNat

/-- The section headers are in the file. -/
def ShdrsIn : Prop :=
  (f.field 0 T.eShoff).toNat + (f.field 0 T.eShnum).toNat * T.sizeofShdr ≤ f.size.toNat

/-- The bytes of program header `i`, as far as they are counted, are in the file if they are
taken. -/
def BytesContained (i : ℕ) : Prop := f.Loads T i → ¬f.Asserts T i →
  (f.field (f.phdr T i) T.pOffset).toNat +
    min (f.field (f.phdr T i) T.pFilesz).toNat (2 ^ 31) ≤ f.size.toNat

/-- The section headers and the names, as far as they are compared, are in the file if they are
used. -/
def NamesContained : Prop := f.HeadersPass T →
  f.FieldIn (f.namesHdr T) T.shOffset ∧ f.FieldIn (f.namesHdr T) T.shSize ∧
    (¬f.size < f.nameTableEnd T →
      f.ShdrsIn T ∧ ∀ i < (f.field 0 T.eShnum).toNat, f.NameIn T i)

/-- The program headers are rejected, or all that is used of the file is in it: the program
headers, the segments up to the first that ends the program, and if there is none, the section
headers and the names. -/
def Contained : Prop := f.size < f.phdrEnd T ∨
  f.PhdrsIn T ∧ (∀ i < f.phnum T, (∀ j < i, ¬f.StopsAt T j) → f.BytesContained T i) ∧
    (f.Stops T ∨ f.NamesContained T)

end File

section Contained

variable {f : File} {T : Layout} {i : ℕ}

theorem phdr_fieldIn (h : T.Laid) (htable : f.PhdrsIn T) (hi : i < f.phnum T) {x : Field}
    (hx : x ∈ [T.pType, T.pOffset, T.pPaddr, T.pFilesz, T.pMemsz]) :
    f.FieldIn (f.phdr T i) x :=
  entry_fieldIn htable hi (h.phdr x hx)

theorem shdr_fieldIn (h : T.Laid) (htable : f.ShdrsIn T) (hi : i < (f.field 0 T.eShnum).toNat)
    {x : Field} (hx : x ∈ [T.shName, T.shOffset, T.shSize]) : f.FieldIn (f.shdr T i) x :=
  entry_fieldIn htable hi (h.shdr x hx)

theorem segmentIn_iff (h : T.Laid) (htable : f.PhdrsIn T) (hi : i < f.phnum T) :
    f.SegmentIn T i ↔ f.BytesContained T i := by
  have hfield {x : Field} (hx : x ∈ [T.pType, T.pOffset, T.pPaddr, T.pFilesz, T.pMemsz]) :=
    phdr_fieldIn h htable hi hx
  have hdata (hne : f.field (f.phdr T i) T.pFilesz ≠ 0) : f.DataIn T i ↔
      (f.field (f.phdr T i) T.pOffset).toNat +
        min (f.field (f.phdr T i) T.pFilesz).toNat (2 ^ 31) ≤ f.size.toNat := by
    have hpos : (f.field (f.phdr T i) T.pFilesz).toNat ≠ 0 := fun hzero =>
      hne (BitVec.eq_of_toNat_eq hzero)
    exact rangeIn_iff (by omega)
  constructor
  · rintro ⟨-, hrest⟩ hloads hgo
    exact (hdata hloads.2.2).mp ((((hrest hloads.1).2 hloads.2.1).2.1 hloads.2.2).2 hgo).2.2
  · intro hbytes
    refine ⟨hfield (by simp), fun htype => ⟨hfield (by simp), fun hmemsz =>
      ⟨hfield (by simp), fun hfilesz => ⟨hfield (by simp), fun hgo =>
        ⟨hfield (by simp), hfield (by simp), ?_⟩⟩, .inr fun _ => hfield (by simp)⟩⟩⟩
    exact (hdata hfilesz).mpr (hbytes ⟨htype, hmemsz, hfilesz⟩ hgo)

theorem segmentsIn_iff (h : T.Laid) (hsize : f.size.toNat < 2 ^ 63)
    (hend : ¬f.size < f.phdrEnd T) : f.SegmentsIn T ↔
      f.PhdrsIn T ∧ ∀ i < f.phnum T, (∀ j < i, ¬f.StopsAt T j) → f.BytesContained T i := by
  have hiff (htable : f.PhdrsIn T) : f.SegmentsIn T ↔
      ∀ i < f.phnum T, (∀ j < i, ¬f.StopsAt T j) → f.BytesContained T i :=
    forall₂_congr fun i hi => imp_congr_right fun _ => segmentIn_iff h htable hi
  refine ⟨fun hin => ?_, fun hcond => (hiff hcond.1).mpr hcond.2⟩
  have hstart : (f.field 0 T.ePhoff).toNat ≤ f.size.toNat := by
    by_cases hnone : f.phnum T = 0
    · have hzero : f.field 0 T.ePhnum = 0#64 := BitVec.eq_of_toNat_eq hnone
      rw [File.phdrEnd, hzero, BitVec.zero_mul, BitVec.add_zero, BitVec.lt_def, Nat.not_lt] at hend
      exact hend
    · have hfirst := hin 0 (Nat.pos_of_ne_zero hnone) fun j hj => absurd hj (Nat.not_lt_zero j)
      have hlt := lt_of_fieldIn h.pType hfirst.1
      rw [File.phdr, entry_zero] at hlt
      exact hlt.le
  have htable : f.PhdrsIn T := table_in hsize (count_lt h.counts.1 0) h.sizes.1 hend hstart
  exact ⟨htable, (hiff htable).mp hin⟩

theorem sectionsIn_iff (h : T.Laid) (hsize : f.size.toNat < 2 ^ 63) :
    f.SectionsIn T ↔ f.NamesContained T := by
  refine imp_congr_right fun hpass => and_congr_right fun _ => and_congr_right fun hnames =>
    imp_congr_right fun _ => ?_
  have hsome : 0 < (f.field 0 T.eShnum).toNat := by
    have hindex := hpass.2
    rw [BitVec.le_def] at hindex
    omega
  constructor
  · intro hin
    have hlt := lt_of_fieldIn h.shName (hin 0 hsome).2.1
    rw [File.shdr, entry_zero] at hlt
    exact ⟨table_in hsize (count_lt h.counts.2 0) h.sizes.2 hpass.1 hlt.le,
      fun i hi => (hin i hi).2.2.1⟩
  · rintro ⟨htable, hin⟩ i hi
    exact ⟨hnames, shdr_fieldIn h htable hi (by simp), hin i hi, fun _ =>
      shdr_fieldIn h htable hi (by simp)⟩

end Contained

/-! ## Main result -/

/-- What is read from the start on. -/
theorem reads_iff {T : Layout} {f : File} {e : Effect Unit} (h : Runs f (loadElf T f) e)
    (g : Globals) : ReadsInFile T f g ↔ e.inFile := by
  have hempty : Loader.InFile f ⟨g, [], []⟩ := fun o ho => absurd ho List.not_mem_nil
  refine Iff.trans ?_ (and_iff_right hempty)
  exact ((h ⟨g, [], []⟩).mono (fun _ _ h => h.2.2.2.2) fun _ _ h => h.2).stateAfter

/-- **Main result.** For every file with room for a header, all that `load_elf` reads is in the
file exactly if the condition holds. The size of a file is an `off_t`. -/
theorem loadElf_reads_iff (c : Class) (f : File) (g : Globals) (hsize : 64 ≤ f.size.toNat)
    (hoff : f.size.toNat < 2 ^ 63) : ReadsInFile c.layout f g ↔ f.Contained c.layout := by
  have hlaid := c.laid
  have hheader := headerIn hlaid hsize
  by_cases hend : f.size < f.phdrEnd c.layout
  · exact (reads_iff (runs_loadElf_rejected hheader hend) g).trans
      (iff_of_true trivial (.inl hend))
  · rw [reads_iff (runs_loadElf hheader hend), segmentsIn_iff hlaid hoff hend,
      sectionsIn_iff hlaid hoff, and_assoc, File.Contained, or_iff_right hend]

/-- An ELF32 file with a segment of one byte and two sections, `.symtab` and `.strtab`. -/
def namedFile : File where
  opens := true
  stats := true
  maps := true
  size := 184
  bytes a := ([0x7F, 0x45, 0x4C, 0x46, 1, 1, 1, 0, 0, 0, 0, 0, 0, 0, 0, 0,
    2, 0, 0xF3, 0, 1, 0, 0, 0, 0, 0, 0, 0x10, 52, 0, 0, 0, 104, 0, 0, 0, 0, 0, 0, 0,
    52, 0, 32, 0, 1, 0, 40, 0, 2, 0, 1, 0,
    1, 0, 0, 0, 84, 0, 0, 0, 0, 0, 0, 0x10, 0, 0, 0, 0x10, 1, 0, 0, 0, 2, 0, 0, 0, 5, 0, 0, 0,
    1, 0, 0, 0, 1,
    0, 0x2E, 0x73, 0x79, 0x6D, 0x74, 0x61, 0x62, 0, 0x2E, 0x73, 0x74, 0x72, 0x74, 0x61, 0x62, 0,
    0, 0,
    1, 0, 0, 0, 0, 0, 0, 0, 0, 0, 0, 0, 0, 0, 0, 0, 0, 0, 0, 0, 0, 0, 0, 0, 0, 0, 0, 0, 0, 0, 0, 0,
    0, 0, 0, 0, 0, 0, 0, 0,
    9, 0, 0, 0, 3, 0, 0, 0, 0, 0, 0, 0, 0, 0, 0, 0, 85, 0, 0, 0, 17, 0, 0, 0] : List Byte).getD
      a.toNat 0

theorem loadElf_reads_sample : namedFile.SectionsPass elf32 ∧
    ReadsInFile elf32 namedFile Loader.init.globals := by
  refine ⟨⟨⟨by decide +kernel, by decide +kernel⟩, by decide +kernel⟩, ?_⟩
  refine (loadElf_reads_iff .c32 namedFile Loader.init.globals (by decide) (by decide)).mpr
    (.inr ⟨by unfold File.PhdrsIn; decide +kernel, fun i hi _ _ _ => ?_, .inr fun _ => ?_⟩)
  · have hone : namedFile.phnum elf32 = 1 := by decide +kernel
    obtain rfl : i = 0 := Nat.lt_one_iff.mp (hone ▸ hi)
    decide +kernel
  · refine ⟨fieldIn_of_le (by decide +kernel), fieldIn_of_le (by decide +kernel), fun _ =>
      ⟨by unfold File.ShdrsIn; decide +kernel, fun i hi => ?_⟩⟩
    have hroom : ∀ i < 2, (namedFile.name elf32 i).toNat + 8 ≤ namedFile.size.toNat := by
      decide +kernel
    have htwo : (namedFile.field 0 Class.c32.layout.eShnum).toNat = 2 := by decide +kernel
    exact ⟨comparedIn_of_le (hroom i (htwo ▸ hi)), fun _ => comparedIn_of_le (hroom i (htwo ▸ hi))⟩

/-! ## A name outside the file -/

/-- An ELF32 file of a header and one section header. The name table is empty, and the name of
the section is at `0x1000` in it. -/
def strayName : File where
  opens := true
  stats := true
  maps := true
  size := 92
  bytes a := ([0x7F, 0x45, 0x4C, 0x46, 1, 1, 1, 0, 0, 0, 0, 0, 0, 0, 0, 0,
    2, 0, 0xF3, 0, 1, 0, 0, 0, 0, 0, 0, 0x10, 52, 0, 0, 0, 52, 0, 0, 0, 0, 0, 0, 0,
    52, 0, 32, 0, 0, 0, 40, 0, 1, 0, 0, 0,
    0, 0x10, 0, 0, 3, 0, 0, 0] : List Byte).getD a.toNat 0

/-- The comparison reads a byte after the file. -/
theorem strayName_reads : strayName.signature Class.c32.ident = true ∧
    64 ≤ strayName.size.toNat ∧ ¬ReadsInFile elf32 strayName Loader.init.globals := by
  refine ⟨by decide +kernel, by decide, fun hall => ?_⟩
  have hheader : strayName.HeaderIn elf32 := headerIn Class.c32.laid (by decide)
  have hend : ¬strayName.size < strayName.phdrEnd elf32 := by decide +kernel
  have hnone : strayName.phnum elf32 = 0 := by decide +kernel
  have hgo : ¬strayName.Stops elf32 := by
    rintro ⟨i, hi, -⟩
    omega
  have hpass : strayName.HeadersPass elf32 := ⟨by decide +kernel, by decide +kernel⟩
  have hsections := ((reads_iff (runs_loadElf hheader hend) _).mp hall).2.resolve_left hgo hpass
  have hname := hsections.2.2 (by decide +kernel) 0 (by decide +kernel)
  exact absurd hname.2.2.1.1.1 (by decide +kernel)

end Cheshire.ElfLoader
