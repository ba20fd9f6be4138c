import Cheshire.ElfLoaderRun

/-!
# Sections of several binaries

A well-formed binary is a list of segments, each with its bytes in the file (`Elf.segments`). The
loader keeps the segments of all binaries so far, and the bytes that were recorded first at each
address (`Holds`).

**Theorem (`session_iff`).** Every binary of a session is read back exactly if no segment lies at an
address where an earlier binary has put other bytes, binaries with segments have the size that
`read_elf` asks for, and the sections can be counted in an `int`.
-/

namespace Cheshire.ElfLoader

open Lib Cmd

/-! ## Binaries -/

namespace File

variable (f : File) (T : Layout)

/-- The range of program header `i` is in the file, and its sizes are in order. -/
structure Inside (i : ℕ) : Prop where
  range : (f.field (f.phdr T i) T.pOffset).toNat + (f.field (f.phdr T i) T.pFilesz).toNat ≤
    f.size.toNat
  sizes : (f.field (f.phdr T i) T.pFilesz).toNat ≤ (f.field (f.phdr T i) T.pMemsz).toNat
  small : (f.field (f.phdr T i) T.pMemsz).toNat < 2 ^ 31

instance (i : ℕ) : Decidable (f.Inside T i) :=
  decidable_of_iff (_ ∧ _ ∧ _) ⟨fun h => ⟨h.1, h.2.1, h.2.2⟩, fun h => ⟨h.range, h.sizes, h.small⟩⟩

end File

/-- A well-formed ELF file. Its section headers do not matter. -/
structure Elf where
  file : File
  cls : Class
  accessible : file.opens ∧ file.stats ∧ file.maps
  signature : file.signature cls.ident = true
  header : cls.layout.sizeofEhdr ≤ file.size.toNat
  table : (file.field 0 cls.layout.ePhoff).toNat +
    file.phnum cls.layout * cls.layout.sizeofPhdr ≤ file.size.toNat
  inside : ∀ i < file.phnum cls.layout, file.segment cls.layout i ≠ none →
    file.Inside cls.layout i
  distinct : ((file.segments cls.layout (file.phnum cls.layout)).map Segment.paddr).Nodup

namespace Elf

/-- The segments, in the order of the program headers. -/
def segments (e : Elf) : List Segment :=
  e.file.segments e.cls.layout (e.file.phnum e.cls.layout)

/-- The size that `read_elf` asks for, `sizeof(Elf64_Ehdr)`. -/
def LargeEnough (e : Elf) : Prop := 64 ≤ e.file.size.toNat

instance (e : Elf) : Decidable e.LargeEnough := inferInstanceAs (Decidable (_ ≤ _))

/-- The segments that `read_elf` records. -/
def recorded (e : Elf) : List Segment := if e.LargeEnough then e.segments else []

end Elf

/-! ## What the loader does to its globals -/

/-- The globals are `g`. -/
def At (g : Globals) (s : Loader) : Prop := s.globals = g

/-- A command that is not stopped. -/
abbrev Sure {α : Type} (P : Loader → Prop) (x : M α) (Q : α → Loader → Prop) : Prop :=
  Triple P x Q fun _ _ => False

theorem Sure.weaken {α : Type} {P : Loader → Prop} {x : M α} {Q : α → Loader → Prop}
    (h : Sure P x Q) : Triple P x Q fun _ _ => True :=
  fun s hs => (h s hs).mono (fun _ _ hq => hq) fun _ _ hfalse => hfalse.elim

theorem Sure.imp {α : Type} {P : Loader → Prop} {x : M α} {Q R : α → Loader → Prop}
    (h : Sure P x Q) (hqr : ∀ a s, Q a s → R a s) : Sure P x R :=
  fun s hs => (h s hs).mono (fun _ _ hq => hqr _ _ hq) fun _ _ hfalse => hfalse

/-- A command that leaves the globals alone. -/
def Quiet {α : Type} (x : M α) : Prop := ∀ g, Sure (At g) x fun _ => At g

section ReadElf

variable {α : Type} {f : File} {x : M α} {a : α} {S F P : Prop} {p : Globals → Globals}
  {g : Globals}

theorem Runs.sure (h : Runs f x ⟨a, S, p, F, P⟩) (hgo : ¬S) :
    Sure (At g) x fun r s => r = a ∧ At (p g) s := by
  rintro s rfl
  exact (h s).mono (fun _ _ hok => ⟨hok.2.1, hok.2.2.1⟩) fun _ _ hstop => hgo hstop.1

theorem Runs.quiet (h : Runs f x ⟨a, False, id, F, P⟩) : Quiet x :=
  fun _ => (h.sure not_false).imp fun _ _ hs => hs.2

/-- What `read_elf` leaves. -/
def Elf.after (e : Elf) (g : Globals) : Globals :=
  if e.LargeEnough then
    e.segments.foldl Globals.record { g with entry := e.file.field 0 e.cls.layout.eEntry }
  else g

namespace Elf

variable (e : Elf)

theorem inside_of_segment {i : ℕ} (hi : i < e.file.phnum e.cls.layout) {p : Segment}
    (hp : e.file.segment e.cls.layout i = some p) : e.file.Inside e.cls.layout i :=
  e.inside i hi (hp ▸ Option.some_ne_none p)

/-- A range in the file does not stop the program. -/
theorem not_stops : ¬e.file.Stops e.cls.layout := by
  rintro ⟨i, hi, hloads, hstop⟩
  have hsome : e.file.segment e.cls.layout i = some _ := if_pos ⟨hloads.1, hloads.2.2⟩
  have hin := e.inside_of_segment hi hsome
  rcases hstop with hassert | hlarge
  · have hsum : ((e.file.field (e.file.phdr e.cls.layout i) e.cls.layout.pOffset) +
        e.file.field (e.file.phdr e.cls.layout i) e.cls.layout.pFilesz).toNat ≤
        e.file.size.toNat := by
      rw [BitVec.toNat_add]
      exact (Nat.mod_le _ _).trans hin.range
    rw [File.Asserts, Layout.add, BitVec.lt_def, BitVec.toNat_setWidth, BitVec.toNat_setWidth]
      at hassert
    exact absurd hassert (Nat.not_lt.2 ((Nat.mod_le _ _).trans ((Nat.mod_le _ _).trans hsum)))
  · exact absurd hlarge (Nat.not_le.2 (hin.sizes.trans_lt hin.small))

theorem not_rejected : ¬e.file.size < e.file.phdrEnd e.cls.layout := by
  rw [BitVec.lt_def, Nat.not_lt, File.phdrEnd, BitVec.toNat_add, BitVec.toNat_mul,
    BitVec.toNat_ofNat]
  refine le_trans ?_ e.table
  refine (Nat.mod_le _ _).trans (Nat.add_le_add_left ((Nat.mod_le _ _).trans ?_) _)
  exact Nat.mul_le_mul_left _ (Nat.mod_le _ _)

/-- All segments have memory, and so they are all recorded. -/
theorem loads_eq : e.file.loads e.cls.layout = e.segments := by
  refine List.filter_eq_self.2 fun p hp => decide_eq_true fun hmemsz => ?_
  obtain ⟨i, hi, hsome⟩ := List.mem_filterMap.1 hp
  have hsizes := (e.inside_of_segment (List.mem_range.1 hi) hsome).sizes
  obtain ⟨hload, hp'⟩ := Option.ite_none_right_eq_some.1 hsome
  obtain rfl := Option.some.inj hp'
  have hzero : (e.file.field (e.file.phdr e.cls.layout i) e.cls.layout.pMemsz).toNat = 0 :=
    congrArg BitVec.toNat hmemsz
  exact hload.2 (BitVec.eq_of_toNat_eq (Nat.le_zero.1 (hsizes.trans_eq hzero)))

end Elf

/-- A file that is large enough gets the result 0. -/
theorem readElf_value (e : Elf) :
    Sure (At g) (readElf e.file) fun r s => (e.LargeEnough → r = 0) ∧ At (e.after g) s := by
  rw [Elf.after]
  by_cases hlarge : e.LargeEnough
  · have haccepted : e.file.Accepted e.cls :=
      ⟨e.accessible.1, e.accessible.2.1, hlarge, e.accessible.2.2, e.signature⟩
    have hload := runs_loadElf (headerIn e.cls.laid hlarge) e.not_rejected
    obtain ⟨Q, hrun⟩ := runs_readElf haccepted hload
    rw [if_pos hlarge, ← e.loads_eq]
    exact (hrun.sure e.not_stops).imp fun _ _ hr => ⟨fun _ => hr.1, hr.2⟩
  · obtain ⟨Q, hrun⟩ := runs_readElf_refused fun c (h : e.file.Accepted c) => hlarge h.large
    rw [if_neg hlarge]
    exact (hrun.quiet g).imp fun _ _ hs => ⟨fun h => absurd h hlarge, hs⟩

theorem readElf_sure (e : Elf) : Sure (At g) (readElf e.file) fun _ => At (e.after g) :=
  (readElf_value e).imp fun _ _ h => h.2

end ReadElf

/-! ## What the loader keeps -/

/-- The bytes that were recorded first at an address. -/
def contents (S : List Segment) (a : U64) : Option (List Byte) :=
  (S.find? fun p => p.paddr = a).map Segment.data

theorem contents_append {S : List Segment} {a : U64} (h : (contents S a).isSome)
    (S' : List Segment) :
    contents (S ++ S') a = contents S a := by
  rw [contents, Option.isSome_map] at h
  obtain ⟨q, hq⟩ := Option.isSome_iff_exists.1 h
  rw [contents, contents, List.find?_append, hq]
  rfl

theorem contents_isSome {S : List Segment} {p : Segment} (hp : p ∈ S) :
    (contents S p.paddr).isSome := by
  rw [contents, Option.isSome_map, List.find?_isSome]
  exact ⟨p, hp, decide_eq_true rfl⟩

theorem contents_concat (S : List Segment) (p : Segment) :
    contents (S ++ [p]) = insert (contents S) p.paddr p.data := by
  funext a
  unfold insert
  by_cases hp : (contents S p.paddr).isSome
  · rw [if_pos hp]
    by_cases ha : (contents S a).isSome
    · exact contents_append ha [p]
    · have hne : p.paddr ≠ a := fun h => ha (h ▸ hp)
      simp [contents, List.find?_append, hne]
  · rw [if_neg hp]
    by_cases ha : a = p.paddr
    · rw [ha, Function.update_self]
      have hnone : S.find? (fun q => q.paddr = p.paddr) = none := by
        simpa [contents] using hp
      simp [contents, List.find?_append, hnone]
    · rw [Function.update_of_ne ha]
      simp [contents, List.find?_append, Ne.symm ha]

/-- The loader has recorded the segments `S`, and handed out `n` of them. -/
structure Holds (S : List Segment) (n : ℕ) (g : Globals) : Prop where
  sections : g.sections = S.map fun p => (p.paddr, p.memsz)
  mems : g.mems = contents S
  index : g.sectionIndex = n

namespace Holds

variable {S : List Segment} {n : ℕ} {g : Globals}

theorem record (h : Holds S n g) (p : Segment) : Holds (S ++ [p]) n (g.record p) where
  sections := by rw [Globals.record, h.sections, List.map_append, List.map_singleton]
  mems := by rw [contents_concat, ← h.mems]; rfl
  index := h.index

theorem foldl_record (h : Holds S n g) (ps : List Segment) :
    Holds (S ++ ps) n (ps.foldl Globals.record g) := by
  induction ps generalizing S g with
  | nil => rwa [List.append_nil]
  | cons p ps ih =>
    rw [List.append_cons]
    exact ih (h.record p)

/-- The next section. -/
theorem section_eq (h : Holds S n g) (hlt : n < S.length) :
    g.sections[g.sectionIndex]? = some (S[n].paddr, S[n].memsz) := by
  rw [h.sections, h.index, List.getElem?_map, List.getElem?_eq_getElem hlt]
  rfl

theorem handOut (h : Holds S n g) :
    Holds S (n + 1) { g with sectionIndex := g.sectionIndex + 1 } :=
  ⟨h.sections, h.mems, congrArg (· + 1) h.index⟩

/-- All sections have been handed out. -/
theorem drained (h : Holds S n g) : Holds S S.length { g with sectionIndex := S.length } :=
  ⟨h.sections, h.mems, rfl⟩

/-- Reading a binary appends its segments. -/
theorem after (h : Holds S n g) (e : Elf) : Holds (S ++ e.recorded) n (e.after g) := by
  unfold Elf.recorded Elf.after
  by_cases hsize : e.LargeEnough
  · rw [if_pos hsize, if_pos hsize]
    have hentry : Holds S n { g with entry := e.file.field 0 e.cls.layout.eEntry } :=
      ⟨h.sections, h.mems, h.index⟩
    exact hentry.foldl_record e.segments
  · rw [if_neg hsize, if_neg hsize, List.append_nil]
    exact h

end Holds

/-! ## Reading the sections -/

/-- Bytes that fit into the buffer are copied to its start. -/
theorem copyArray_fits {data buf : List Byte} (pre : List Byte) {len : U64}
    (hlen : data.length ≤ len.toNat) (hbuf : data.length ≤ buf.length) :
    copyArray data pre.length len (pre ++ buf) = (0, pre ++ data ++ buf.drop data.length) := by
  induction data generalizing buf pre len with
  | nil => rw [copyArray, List.append_nil, List.length_nil, List.drop_zero]
  | cons b data ih =>
    cases buf with
    | nil => exact absurd hbuf (Nat.not_succ_le_zero _)
    | cons c buf =>
      simp only [List.length_cons] at hlen hbuf
      have hpos : len ≠ 0 := fun h => by
        rw [h] at hlen
        exact Nat.not_succ_le_zero _ hlen
      have hsub : (len - 1).toNat = len.toNat - 1 := by
        have hone : (1 : U64).toNat = 1 := rfl
        have := len.isLt
        rw [BitVec.toNat_sub, hone]
        omega
      have hset : (pre ++ c :: buf).set pre.length b = (pre ++ [b]) ++ buf := by simp
      have hnext := @ih buf (pre ++ [b]) (len - 1) (by omega) (by omega)
      rw [List.length_append, List.length_singleton] at hnext
      rw [copyArray, if_neg hpos, hset, hnext]
      simp

/-- Bytes that do not fit are reported. -/
theorem copyArray_full {data buf : List Byte} {pos : ℕ} {len : U64}
    (h : len.toNat < data.length) : (copyArray data pos len buf).1 = -1 := by
  induction data generalizing buf pos len with
  | nil => exact absurd h (Nat.not_lt_zero _)
  | cons b data ih =>
    rw [copyArray]
    by_cases hzero : len = 0
    · rw [if_pos hzero]
    · have hpos : len.toNat ≠ 0 := fun h => hzero (BitVec.eq_of_toNat_eq h)
      have hsub : (len - 1).toNat = len.toNat - 1 := by
        have hone : (1 : U64).toNat = 1 := rfl
        have := len.isLt
        rw [BitVec.toNat_sub, hone]
        omega
      rw [List.length_cons] at h
      rw [if_neg hzero]
      exact ih (by omega)

/-- The bytes of a segment, followed by zeros. -/
def Segment.image (p : Segment) : List Byte :=
  p.data ++ List.replicate (p.memsz.toNat - p.data.length) 0

/-- What the testbench should get. -/
def Segment.expected (p : Segment) : Obtained := ⟨p.paddr, p.memsz, 0, p.image⟩

/-- What the testbench gets for a segment if the loader has recorded `S`. -/
def obtained (S : List Segment) (p : Segment) : Obtained :=
  match contents S p.paddr with
  | none => ⟨p.paddr, p.memsz, -1, List.replicate p.memsz.toNat 0⟩
  | some mem =>
    ⟨p.paddr, p.memsz, (copyArray mem 0 p.memsz (List.replicate p.memsz.toNat 0)).1,
      (copyArray mem 0 p.memsz (List.replicate p.memsz.toNat 0)).2⟩

theorem obtained_append {S : List Segment} {p : Segment} (hp : p ∈ S) (S' : List Segment) :
    obtained (S ++ S') p = obtained S p := by
  unfold obtained
  rw [contents_append (contents_isSome hp)]

/-- The bytes recorded first are right for a segment at their address. -/
theorem obtained_eq_iff {S : List Segment} {p q : Segment}
    (hq : S.find? (fun q => q.paddr = p.paddr) = some q) :
    obtained S p = p.expected ↔ q.data.length ≤ p.memsz.toNat ∧
      q.data ++ List.replicate (p.memsz.toNat - q.data.length) 0 = p.image := by
  have hmem : contents S p.paddr = some q.data := by rw [contents, hq]; rfl
  unfold obtained Segment.expected
  rw [hmem]
  by_cases hlen : q.data.length ≤ p.memsz.toNat
  · have hcopy := @copyArray_fits q.data (List.replicate p.memsz.toNat 0) [] p.memsz hlen
      (by rw [List.length_replicate]; exact hlen)
    rw [List.length_nil, List.nil_append, List.nil_append, List.drop_replicate] at hcopy
    show Obtained.mk _ _ (copyArray _ _ _ _).1 (copyArray _ _ _ _).2 = _ ↔ _
    rw [hcopy]
    simp [hlen]
  · have hfull := @copyArray_full q.data (List.replicate p.memsz.toNat 0) 0 p.memsz
      (Nat.not_le.1 hlen)
    refine ⟨fun h => ?_, fun h => absurd h.1 hlen⟩
    have hres : (-1 : Char8) = 0 := hfull.symm.trans (congrArg Obtained.result h)
    exact absurd hres (by decide)

section Preload

variable {S : List Segment} {n : ℕ} {g : Globals}

theorem readSection_sure (h : Holds S n g) (p : Segment) :
    Sure (At g) (readSection p.paddr (List.replicate p.memsz.toNat 0) p.memsz)
      fun r s => Obtained.mk p.paddr p.memsz r.1 r.2 = obtained S p ∧ At g s := by
  intro s hs
  obtain rfl := hs
  unfold readSection obtained
  rw [bind_ok (x := globals) rfl, h.mems]
  cases contents S p.paddr with
  | none => exact ⟨rfl, rfl⟩
  | some mem =>
    show Ends ((if _ then _ else _ : M _) s) _ _
    by_cases hres : (copyArray mem 0 p.memsz (List.replicate p.memsz.toNat 0)).1 = 0
    · rw [if_pos hres]
      exact ⟨rfl, rfl⟩
    · rw [if_neg hres]
      exact ⟨rfl, rfl⟩

theorem getSection_some {s : Loader} {sec : U64 × U64}
    (h : s.globals.sections[s.globals.sectionIndex]? = some sec)
    (hlt : s.globals.sectionIndex + 1 < 2 ^ 31) : getSection s =
      .ok (some sec) { s with globals.sectionIndex := s.globals.sectionIndex + 1 } := by
  unfold getSection
  rw [bind_ok (x := globals) rfl, h]
  show (if _ then _ else _ : M _) s = _
  rw [if_neg (by omega)]
  rfl

theorem getSection_overflow {s : Loader} {sec : U64 × U64}
    (h : s.globals.sections[s.globals.sectionIndex]? = some sec)
    (heq : s.globals.sectionIndex + 1 = 2 ^ 31) : getSection s = .error .overflow s := by
  unfold getSection
  rw [bind_ok (x := globals) rfl, h]
  show (if _ then _ else _ : M _) s = _
  rw [if_pos heq]
  rfl

theorem getSection_none {s : Loader}
    (h : s.globals.sections[s.globals.sectionIndex]? = none) : getSection s = .ok none s := by
  unfold getSection
  rw [bind_ok (x := globals) rfl, h]
  rfl

/-- All the sections that have not been handed out yet. -/
theorem preload_sure (h : Holds S n g) (hn : n ≤ S.length) (hfew : S.length < 2 ^ 31) (fuel : ℕ)
    (hfuel : S.length - n < fuel) : Sure (At g) (preload fuel) fun out s =>
      out = (S.drop n).map (obtained S) ∧ At { g with sectionIndex := S.length } s := by
  induction fuel generalizing n g with
  | zero => exact absurd hfuel (Nat.not_lt_zero _)
  | succ fuel ih =>
    intro s hs
    obtain rfl := hs
    rcases hn.lt_or_eq with hlt | heq
    · have hidx := h.index
      rw [preload, bind_ok (getSection_some (h.section_eq hlt) (by omega))]
      refine Ends.bind (readSection_sure h.handOut S[n] _ rfl) fun r s₁ hr => ?_
      refine Ends.bind (ih h.handOut hlt (by omega) s₁ hr.2) fun rest s₂ hrest => ?_
      refine ⟨?_, hrest.2⟩
      rw [hr.1, hrest.1, List.drop_eq_getElem_cons hlt, List.map_cons]
    · have hsec : s.globals.sections[s.globals.sectionIndex]? = none := by
        rw [h.sections, h.index, heq, List.getElem?_map, List.getElem?_eq_none le_rfl]
        rfl
      rw [preload, bind_ok (getSection_none hsec)]
      refine ⟨?_, ?_⟩
      · rw [heq, List.drop_length, List.map_nil]
      · show s.globals = _
        rw [← heq, ← h.index]

/-- More sections than an `int` can count. -/
theorem preload_overflow (h : Holds S n g) (hn : n < 2 ^ 31) (hmany : 2 ^ 31 ≤ S.length)
    (fuel : ℕ) : Triple (At g) (preload fuel) (fun _ _ => False) fun _ _ => True := by
  induction fuel generalizing n g with
  | zero => exact fun _ _ => trivial
  | succ fuel ih =>
    intro s hs
    obtain rfl := hs
    have hlt : n < S.length := by omega
    have hidx := h.index
    by_cases hlast : n + 1 = 2 ^ 31
    · rw [preload, bind_error (getSection_overflow (h.section_eq hlt) (by omega))]
      trivial
    · rw [preload, bind_ok (getSection_some (h.section_eq hlt) (by omega))]
      refine Ends.bind ((readSection_sure h.handOut S[n]).weaken _ rfl) fun r s₁ hr => ?_
      exact Ends.bind (ih h.handOut (by omega) s₁ hr.2) fun _ _ hfalse => hfalse.elim

end Preload

/-! ## Sessions -/

section Session

variable {S : List Segment} {g : Globals} {fuel : ℕ}

/-- The segments of all binaries that `read_elf` accepts. -/
def allRecorded (es : List Elf) : List Segment := es.flatMap Elf.recorded

theorem append_allRecorded (S : List Segment) (e : Elf) (es : List Elf) :
    S ++ allRecorded (e :: es) = (S ++ e.recorded) ++ allRecorded es := by
  rw [allRecorded, List.flatMap_cons, List.append_assoc]
  rfl

/-- What the testbench gets of each binary. -/
theorem session_sure (h : Holds S S.length g) (es : List Elf)
    (hfew : (S ++ allRecorded es).length < 2 ^ 31) (hfuel : (S ++ allRecorded es).length < fuel) :
    Sure (At g) (session fuel (es.map Elf.file)) fun out _ =>
      out = es.map fun e => e.recorded.map (obtained (S ++ allRecorded es)) := by
  induction es generalizing S g with
  | nil => exact Triple.pure fun _ _ => rfl
  | cons e es ih =>
    rw [append_allRecorded, List.length_append] at hfew hfuel
    have hread := h.after e
    have hlen : S.length ≤ (S ++ e.recorded).length := by simp
    refine Triple.bind (readElf_sure e) fun _ => Triple.bind
      (preload_sure hread hlen (by omega) fuel (by omega)) fun sections s hs => ?_
    refine Ends.bind (ih hread.drained (by rw [List.length_append]; omega)
      (by rw [List.length_append]; omega) s hs.2) fun rest _ hrest => ?_
    show sections :: rest = _
    rw [hs.1, hrest, append_allRecorded, List.map_cons, List.drop_left]
    congr 1
    exact List.map_congr_left fun p hp =>
      (obtained_append (List.mem_append_right S hp) _).symm

theorem session_overflow (h : Holds S S.length g) (es : List Elf) (hS : S.length < 2 ^ 31)
    (hmany : 2 ^ 31 ≤ (S ++ allRecorded es).length) (hfuel : (S ++ allRecorded es).length < fuel) :
    Triple (At g) (session fuel (es.map Elf.file)) (fun _ _ => False) fun _ _ => True := by
  induction es generalizing S g with
  | nil =>
    rw [allRecorded, List.flatMap_nil, List.append_nil] at hmany
    omega
  | cons e es ih =>
    rw [append_allRecorded, List.length_append] at hmany hfuel
    have hread := h.after e
    refine Triple.bind (readElf_sure e).weaken fun _ => ?_
    by_cases hfew : (S ++ e.recorded).length < 2 ^ 31
    · have hlen : S.length ≤ (S ++ e.recorded).length := by simp
      refine Triple.bind (preload_sure hread hlen hfew fuel (by omega)).weaken fun _ s hs => ?_
      exact Ends.bind (ih hread.drained hfew (by rw [List.length_append]; omega)
        (by rw [List.length_append]; omega) s hs.2) fun _ _ hfalse => hfalse.elim
    · exact Triple.bind (preload_overflow hread hS (Nat.not_lt.1 hfew) fuel) fun _ _ hf => hf.elim

end Session

/-! ## Main result -/

/-- The condition under which every binary is read back. -/
structure Consistent (es : List Elf) : Prop where
  large : ∀ e ∈ es, e.LargeEnough ∨ e.segments = []
  /-- The bytes of the first segment at an address are those of every segment there. -/
  same : ∀ p ∈ es.flatMap Elf.segments, ∀ q ∈ es.flatMap Elf.segments,
    (es.flatMap Elf.segments).find? (fun q => q.paddr = p.paddr) = some q →
      q.data.length ≤ p.memsz.toNat ∧
        q.data ++ List.replicate (p.memsz.toNat - q.data.length) 0 = p.image
  few : (es.flatMap Elf.segments).length < 2 ^ 31

/-- Each binary is read back: its segments in order, with their bytes followed by zeros. -/
def ReadBack (es : List Elf) (out : List (List Obtained)) : Prop :=
  out = es.map fun e => e.segments.map Segment.expected

theorem allRecorded_eq {es : List Elf} (h : ∀ e ∈ es, e.LargeEnough ∨ e.segments = []) :
    ∀ e ∈ es, e.recorded = e.segments := by
  intro e he
  rw [Elf.recorded]
  rcases h e he with hsize | hnone
  · rw [if_pos hsize]
  · rw [hnone, ite_self]

theorem flatMap_recorded {es : List Elf} (h : ∀ e ∈ es, e.recorded = e.segments) :
    allRecorded es = es.flatMap Elf.segments := by
  rw [allRecorded, List.flatMap_def, List.flatMap_def, List.map_congr_left h]

theorem allRecorded_length_le (es : List Elf) :
    (allRecorded es).length ≤ (es.flatMap Elf.segments).length := by
  induction es with
  | nil => exact le_rfl
  | cons e es ih =>
    have hone : e.recorded.length ≤ e.segments.length := by
      rw [Elf.recorded]
      by_cases hsize : e.LargeEnough
      · rw [if_pos hsize]
      · rw [if_neg hsize]
        exact Nat.zero_le _
    rw [allRecorded, List.flatMap_cons, List.flatMap_cons, List.length_append, List.length_append]
    exact Nat.add_le_add hone ih

theorem holds_init : Holds [] 0 Loader.init.globals := ⟨rfl, rfl, rfl⟩

/-- A session that reads every binary back. -/
theorem consistent_of_readBack {es : List Elf} {fuel : ℕ}
    (hfuel : (es.flatMap Elf.segments).length < fuel) {out : List (List Obtained)} {s : Loader}
    (hrun : session fuel (es.map Elf.file) .init = .ok out s) (hback : ReadBack es out) :
    Consistent es := by
  have hle := allRecorded_length_le es
  by_cases hfew : (allRecorded es).length < 2 ^ 31
  · have hsession := session_sure holds_init es hfew (hle.trans_lt hfuel) .init rfl
    rw [hrun] at hsession
    have hout : ∀ e ∈ es, e.recorded.map (obtained (allRecorded es)) =
        e.segments.map Segment.expected :=
      List.map_inj_left.1 (hsession.symm.trans hback)
    have hlarge : ∀ e ∈ es, e.LargeEnough ∨ e.segments = [] := by
      intro e he
      by_cases hsize : e.LargeEnough
      · exact .inl hsize
      · have hnone := hout e he
        rw [Elf.recorded, if_neg hsize] at hnone
        exact .inr (List.map_eq_nil_iff.1 hnone.symm)
    have hall := flatMap_recorded (allRecorded_eq hlarge)
    refine ⟨hlarge, fun p hp q _ hq => ?_, hall ▸ hfew⟩
    obtain ⟨e, he, hpe⟩ := List.mem_flatMap.1 hp
    have hp' := hout e he
    rw [allRecorded_eq hlarge e he, hall] at hp'
    exact (obtained_eq_iff hq).1 (List.map_inj_left.1 hp' p hpe)
  · have hsession := session_overflow holds_init es (Nat.two_pow_pos 31) (Nat.not_lt.1 hfew)
      (hle.trans_lt hfuel) .init rfl
    rw [hrun] at hsession
    exact hsession.elim

theorem readBack_of_consistent {es : List Elf} {fuel : ℕ}
    (hfuel : (es.flatMap Elf.segments).length < fuel) (h : Consistent es) :
    ∃ out s, session fuel (es.map Elf.file) .init = .ok out s ∧ ReadBack es out := by
  have hrec := allRecorded_eq h.large
  have hall := flatMap_recorded hrec
  have hsession := session_sure holds_init es (hall ▸ h.few) (hall ▸ hfuel) .init rfl
  cases hrun : session fuel (es.map Elf.file) .init with
  | error e s =>
    rw [hrun] at hsession
    exact hsession.elim
  | ok out s =>
    rw [hrun] at hsession
    refine ⟨out, s, rfl, hsession.trans (List.map_congr_left fun e he => ?_)⟩
    rw [hrec e he, List.nil_append, hall]
    refine List.map_congr_left fun p hp => ?_
    have hmem := List.mem_flatMap.2 ⟨e, he, hp⟩
    obtain ⟨q, hq⟩ := Option.isSome_iff_exists.1 <| List.find?_isSome
      (p := fun q => decide (q.paddr = p.paddr)).2 ⟨p, hmem, decide_eq_true rfl⟩
    exact (obtained_eq_iff hq).2 (h.same p hmem q (List.mem_of_find?_eq_some hq) hq)

/-- **Main result.** A session reads every binary back exactly if the condition holds. -/
theorem session_iff (es : List Elf) {fuel : ℕ} (hfuel : (es.flatMap Elf.segments).length < fuel) :
    (∃ out s, session fuel (es.map Elf.file) .init = .ok out s ∧ ReadBack es out) ↔
      Consistent es := by
  refine ⟨fun h => ?_, readBack_of_consistent hfuel⟩
  obtain ⟨out, s, hrun, hback⟩ := h
  exact consistent_of_readBack hfuel hrun hback

/-! ## Two binaries at one address -/

/-- An ELF32 file with one segment at `0x10000000`: one byte in the file, two in memory. -/
def sampleFile (b : Byte) : File where
  opens := true
  stats := true
  maps := true
  size := 85
  bytes a := ([0x7F, 0x45, 0x4C, 0x46, 1, 1, 1, 0, 0, 0, 0, 0, 0, 0, 0, 0,
    2, 0, 0xF3, 0, 1, 0, 0, 0, 0, 0, 0, 0x10, 52, 0, 0, 0, 0, 0, 0, 0, 0, 0, 0, 0,
    52, 0, 32, 0, 1, 0, 40, 0, 0, 0, 0, 0,
    1, 0, 0, 0, 84, 0, 0, 0, 0, 0, 0, 0x10, 0, 0, 0, 0x10, 1, 0, 0, 0, 2, 0, 0, 0, 5, 0, 0, 0,
    1, 0, 0, 0, b] : List Byte).getD a.toNat 0

def sampleElf (b : Byte) (hb : b ∈ [1, 2]) : Elf where
  file := sampleFile b
  cls := .c32
  accessible := ⟨rfl, rfl, rfl⟩
  signature := rfl
  header := Nat.le_of_ble_eq_true rfl
  table := by revert b; decide +kernel
  inside := by revert b; decide +kernel
  distinct := by revert b; decide +kernel

/-- A binary after itself. -/
def same : List Elf := [sampleElf 1 (by decide), sampleElf 1 (by decide)]

/-- A binary after another one with a different byte. -/
def different : List Elf := [sampleElf 1 (by decide), sampleElf 2 (by decide)]

theorem session_iff_sample :
    ∃ out s, session 3 (same.map Elf.file) .init = .ok out s ∧ ReadBack same out :=
  (session_iff same (by decide +kernel)).2
    ⟨by decide +kernel, by decide +kernel, by decide +kernel⟩

/-- The second binary is read back with the byte of the first one. -/
theorem different_not_readBack :
    ¬∃ out s, session 3 (different.map Elf.file) .init = .ok out s ∧ ReadBack different out := by
  intro h
  obtain ⟨out, s, hrun, hback⟩ := h
  have hcons := consistent_of_readBack (by decide +kernel) hrun hback
  have hsame := hcons.same ⟨0x10000000, 2, [2]⟩ (by decide +kernel) ⟨0x10000000, 2, [1]⟩
    (by decide +kernel) (by decide +kernel)
  exact absurd hsame.2 (by decide)

end Cheshire.ElfLoader
