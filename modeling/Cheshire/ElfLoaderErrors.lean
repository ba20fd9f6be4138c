import Cheshire.ElfLoaderReads

/-!
# What the loader reports

`read_elf` returns an error for what it checks itself. `load_elf` returns nothing: what it finds
wrong with the tables is printed, after the segments have been recorded or before, and the call
returns 0. A segment with bytes in the file but no memory is left out, and so are the bytes of a
segment whose address has been loaded before.

**Theorem (`readElf_faithful_iff`).** A call is `Faithful` if 0 means that everything has been
loaded and an error that nothing has changed. It is so exactly for files that `read_elf` refuses,
files that end the program, and files in which `load_elf` finds nothing wrong, all whose segments
have memory and bytes of their own.
-/

namespace Cheshire.ElfLoader

open Lib Cmd

/-! ## Specification -/

/-- The entry point and the segments of the file have been recorded. -/
structure Recorded (f : File) (c : Class) (g g' : Globals) : Prop where
  entry : g'.entry = f.field 0 c.layout.eEntry
  sections : g'.sections = g.sections ++
    (f.segments c.layout (f.phnum c.layout)).map fun p => (p.paddr, p.memsz)
  mems : ∀ p ∈ f.segments c.layout (f.phnum c.layout), g'.mems p.paddr = some p.data

/-- The globals that a file is loaded into. -/
def Globals.Same (g g' : Globals) : Prop :=
  g'.sections = g.sections ∧ g'.mems = g.mems ∧ g'.entry = g.entry

/-- If the call returns 0, the file has been loaded. If an error is printed, the call returns
something else and has changed nothing. -/
def Faithful (f : File) (g : Globals) : Prop := ∀ r s, readElf f ⟨g, [], []⟩ = .ok r s →
  (r = 0 → ∃ c : Class, f.signature c.ident = true ∧ Recorded f c g s.globals) ∧
    (s.Failed → r ≠ 0 ∧ g.Same s.globals)

/-! ## The condition -/

namespace File

variable (f : File)

/-- The bytes of every segment are the first at its address, earlier files included. -/
def OwnBytes (T : Layout) (g : Globals) : Prop := ∀ p ∈ f.segments T (f.phnum T),
  (g.mems p.paddr).or (contents (f.segments T (f.phnum T)) p.paddr) = some p.data

/-- The program ends, or `load_elf` finds nothing wrong and records every segment. -/
def Clean (T : Layout) (g : Globals) : Prop := ¬f.size < f.phdrEnd T ∧
  (f.Stops T ∨ f.SectionsPass T ∧ (∀ p ∈ f.segments T (f.phnum T), p.memsz ≠ 0) ∧ f.OwnBytes T g)

end File

/-! ## Globals after a file -/

section Globals

variable {g : Globals}

theorem foldl_record_entry (S : List Segment) : (S.foldl Globals.record g).entry = g.entry :=
  List.foldlRecOn (motive := fun g' : Globals => g'.entry = g.entry) S _ rfl fun _ hg _ _ => hg

theorem foldl_record_sections (S : List Segment) : (S.foldl Globals.record g).sections =
    g.sections ++ S.map fun p => (p.paddr, p.memsz) := by
  induction S generalizing g with
  | nil => rw [List.map_nil, List.append_nil, List.foldl_nil]
  | cons p S ih =>
    rw [List.foldl_cons, ih, List.map_cons, List.append_cons]
    rfl

theorem insert_apply (mems : U64 → Option (List Byte)) (p : Segment) (a : U64) :
    insert mems p.paddr p.data a = (mems a).or (if p.paddr = a then some p.data else none) := by
  rw [insert]
  by_cases ha : p.paddr = a
  · obtain rfl := ha
    rw [if_pos rfl]
    cases hmem : mems p.paddr with
    | none => rw [if_neg (by simp), Function.update_self, Option.none_or]
    | some mem =>
      have hkept : (some mem).isSome = true := rfl
      rw [if_pos hkept, hmem, Option.some_or]
  · rw [if_neg ha, Option.or_none]
    by_cases hsome : (mems p.paddr).isSome = true
    · rw [if_pos hsome]
    · rw [if_neg hsome, Function.update_of_ne (Ne.symm ha)]

/-- What is at an address stays there, and otherwise the first segment counts. -/
theorem foldl_record_mems (S : List Segment) (a : U64) :
    (S.foldl Globals.record g).mems a = (g.mems a).or (contents S a) := by
  induction S generalizing g with
  | nil => exact (Option.or_none).symm
  | cons p S ih =>
    have hcons : contents (p :: S) a =
        (if p.paddr = a then some p.data else none).or (contents S a) := by
      by_cases ha : p.paddr = a <;> simp [contents, ha]
    rw [List.foldl_cons, ih, hcons, ← Option.or_assoc, ← insert_apply]
    rfl

end Globals

/-! ## Main result -/

section Main

variable {f : File} {c : Class} {g : Globals}

/-- A call with a known effect. -/
theorem faithful_of_runs {r : Char8} {S F P : Prop} {p : Globals → Globals}
    (h : Runs f (readElf f) ⟨r, S, p, F, P⟩) : Faithful f g ↔ (¬S →
      (r = 0 → ∃ c : Class, f.signature c.ident = true ∧ Recorded f c g (p g)) ∧
        (F → r ≠ 0 ∧ g.Same (p g))) := by
  have hrun := h ⟨g, [], []⟩
  have hnone : ¬Loader.Failed ⟨g, [], []⟩ := fun hfail => by simp [Loader.Failed] at hfail
  rw [Faithful]
  cases hr : readElf f ⟨g, [], []⟩ with
  | error e s =>
    rw [hr] at hrun
    refine iff_of_true (fun r s' hok => ?_) fun hgo => absurd hrun.1 hgo
    cases hok
  | ok r' s =>
    rw [hr] at hrun
    obtain ⟨hgo, rfl, hglobals, hfail, -⟩ := hrun
    rw [or_iff_right hnone] at hfail
    constructor
    · intro hfaithful _
      have hs := hfaithful _ s rfl
      rw [hglobals, hfail] at hs
      exact hs
    · intro h r s' hok
      obtain ⟨rfl, rfl⟩ := EStateM.Result.ok.inj hok
      rw [hglobals, hfail]
      exact h hgo

theorem not_faithful_of_rejected (h : f.Accepted c) (hend : f.size < f.phdrEnd c.layout) :
    ¬Faithful f g := by
  obtain ⟨Q, hrun⟩ := runs_readElf h (runs_loadElf_rejected (headerIn c.laid h.large) hend)
  rw [faithful_of_runs hrun]
  exact fun hfaithful => ((hfaithful not_false).2 trivial).1 rfl

/-- When the segments that are recorded are all the segments with their bytes. -/
theorem recorded_iff (hsig : f.signature c.ident = true) :
    (∃ c' : Class, f.signature c'.ident = true ∧ Recorded f c' g
      ((f.loads c.layout).foldl Globals.record { g with entry := f.field 0 c.layout.eEntry })) ↔
      (∀ p ∈ f.segments c.layout (f.phnum c.layout), p.memsz ≠ 0) ∧ f.OwnBytes c.layout g := by
  have hall : (∀ p ∈ f.segments c.layout (f.phnum c.layout), p.memsz ≠ 0) →
      f.loads c.layout = f.segments c.layout (f.phnum c.layout) := fun h =>
    List.filter_eq_self.mpr fun p hp => decide_eq_true (h p hp)
  constructor
  · rintro ⟨c', hsig', hrec⟩
    obtain rfl := signature_unique hsig hsig'
    have hsections := hrec.sections
    rw [foldl_record_sections, List.append_cancel_left_eq] at hsections
    have hlength := congrArg List.length hsections
    rw [List.length_map, List.length_map] at hlength
    have hmemsz : ∀ p ∈ f.segments c.layout (f.phnum c.layout), p.memsz ≠ 0 := fun p hp =>
      of_decide_eq_true (List.length_filter_eq_length_iff.mp hlength p hp)
    refine ⟨hmemsz, fun p hp => ?_⟩
    have hmems := hrec.mems p hp
    rwa [foldl_record_mems, hall hmemsz] at hmems
  · rintro ⟨hmemsz, hown⟩
    refine ⟨c, hsig, ?_, ?_, fun p hp => ?_⟩
    · rw [foldl_record_entry]
    · rw [foldl_record_sections, hall hmemsz]
    · rw [foldl_record_mems, hall hmemsz]
      exact hown p hp

/-- **Main result.** A call is faithful exactly if `read_elf` refuses the file, or `load_elf` ends
the program or finds nothing wrong with the file and loads all of it. -/
theorem readElf_faithful_iff (f : File) (g : Globals) : Faithful f g ↔
    (∀ c, ¬f.Accepted c) ∨ ∃ c, f.Accepted c ∧ f.Clean c.layout g := by
  by_cases hrefused : ∀ c, ¬f.Accepted c
  · obtain ⟨Q, hrun⟩ := runs_readElf_refused hrefused
    refine iff_of_true ((faithful_of_runs hrun).mpr fun _ => ⟨fun h => ?_, fun _ => ?_⟩)
      (.inl hrefused)
    · exact absurd h (by decide)
    · exact ⟨by decide, rfl, rfl, rfl⟩
  · obtain ⟨c, haccepted⟩ := not_forall_not.mp hrefused
    rw [or_iff_right hrefused]
    have hclass : (∃ c, f.Accepted c ∧ f.Clean c.layout g) ↔ f.Clean c.layout g := by
      refine ⟨fun h => ?_, fun h => ⟨c, haccepted, h⟩⟩
      obtain ⟨c', haccepted', h⟩ := h
      obtain rfl := signature_unique haccepted.signature haccepted'.signature
      exact h
    rw [hclass]
    by_cases hend : f.size < f.phdrEnd c.layout
    · exact iff_of_false (not_faithful_of_rejected haccepted hend) fun h => h.1 hend
    · have hheader := headerIn c.laid haccepted.large
      obtain ⟨Q, hrun⟩ := runs_readElf haccepted (runs_loadElf hheader hend)
      rw [faithful_of_runs hrun, recorded_iff haccepted.signature, File.Clean,
        and_iff_right hend, or_iff_not_imp_left]
      -- an error is printed, but the result is 0
      refine imp_congr_right fun _ =>
        ⟨fun h => ⟨?_, h.1 rfl⟩, fun h => ⟨fun _ => h.2, fun hfail => ?_⟩⟩
      · exact by_contra fun hfail => (h.2 hfail).1 rfl
      · exact absurd h.1 hfail

end Main

/-! ## A file without its program headers -/

/-- The header of an ELF32 file with a segment, without the program header. -/
def headerOnly : File := { sampleFile 1 with size := 64 }

/-- The error is printed and 0 is returned. -/
theorem headerOnly_not_faithful : ¬Faithful headerOnly Loader.init.globals :=
  not_faithful_of_rejected (c := .c32)
    ⟨rfl, rfl, by decide, rfl, by decide +kernel⟩ (by decide +kernel)

end Cheshire.ElfLoader
