import Cheshire.ElfLoader
import Mathlib.Data.List.Basic

/-!
# What the loader does with any file

Nothing that the loader reads or prints depends on its globals, so what a command does is known
from the file (`Effect`): the value it gives, whether it stops the program, how it changes the
globals, whether it prints an error, and whether all it reads is in the file. `Runs` says that a
command does this from every state, and has one rule for sequences and one for loops.
-/

namespace Cheshire.ElfLoader

open Lib Cmd

/-! ## Effects -/

/-- What is printed as an error. -/
def Msg.isError : Msg → Bool
  | .cannotOpen | .cannotStat | .tooSmall _ | .cannotMap | .noSignature | .programHeaders _ _
  | .sectionHeaders _ _ | .stringIndex _ _ | .nameTable _ _ | .noSection _ | .bufferFull _ => true
  | .mapped | .entrypoint _ | .zeroBytes _ _ | .stringTable _ | .symbolTable _ => false

namespace Loader

/-- All that has been read is in the file. -/
def InFile (f : File) (s : Loader) : Prop := ∀ o ∈ s.reads, o < f.size

/-- An error has been printed. -/
def Failed (s : Loader) : Prop := ∃ m ∈ s.printed, m.isError = true

end Loader

/-- What a command does. The value, the globals and the errors are those of a command that does
not stop the program. -/
structure Effect (α : Type) where
  value : α
  stops : Prop
  globals : Globals → Globals
  fails : Prop
  inFile : Prop

namespace Effect

variable {α β : Type}

/-- Only reads. -/
def reading (a : α) (P : Prop) : Effect α := ⟨a, False, id, False, P⟩

def done (a : α) : Effect α := reading a True

def andThen (e : Effect α) (e' : Effect β) : Effect β where
  value := e'.value
  stops := e.stops ∨ e'.stops
  globals g := e'.globals (e.globals g)
  fails := e.fails ∨ e'.fails
  inFile := e.inFile ∧ (e.stops ∨ e'.inFile)

end Effect

/-- From every state, `x` does what `e` says. -/
def Runs {α : Type} (f : File) (x : M α) (e : Effect α) : Prop := ∀ s, Ends (x s)
  (fun a s' => ¬e.stops ∧ a = e.value ∧ s'.globals = e.globals s.globals ∧
    (s'.Failed ↔ s.Failed ∨ e.fails) ∧ (s'.InFile f ↔ s.InFile f ∧ e.inFile))
  (fun _ s' => e.stops ∧ (s'.InFile f ↔ s.InFile f ∧ e.inFile))

namespace Runs

variable {α β : Type} {f : File} {x : M α} {k : α → M β} {e : Effect α} {e' : Effect β}

theorem bind (hx : Runs f x e) (hk : Runs f (k e.value) e') : Runs f (x >>= k) (e.andThen e') := by
  intro s
  have hs := hx s
  cases hr : x s with
  | error err s₁ =>
    rw [hr] at hs
    obtain ⟨hstop, hin⟩ := hs
    rw [bind_error hr]
    refine ⟨.inl hstop, hin.trans (and_congr_right fun _ => ?_)⟩
    exact (and_iff_left (.inl hstop)).symm
  | ok a s₁ =>
    rw [hr] at hs
    obtain ⟨hgo, rfl, hglobals, hfails, hin⟩ := hs
    have hnext : e.stops ∨ e'.inFile ↔ e'.inFile := or_iff_right hgo
    have hboth : s.InFile f ∧ e.inFile ∧ e'.inFile ↔ s.InFile f ∧ (e.andThen e').inFile :=
      and_congr_right fun _ => and_congr_right fun _ => hnext.symm
    rw [bind_ok hr]
    refine (hk s₁).mono (fun b s₂ h => ?_) fun err s₂ h => ?_
    · obtain ⟨hgo', rfl, hglobals', hfails', hin'⟩ := h
      refine ⟨not_or.mpr ⟨hgo, hgo'⟩, rfl, ?_, ?_, ?_⟩
      · rw [hglobals', hglobals, Effect.andThen]
      · rw [hfails', hfails, Effect.andThen, or_assoc]
      · rw [hin', hin, and_assoc, hboth]
    · obtain ⟨hstop', hin'⟩ := h
      refine ⟨.inr hstop', ?_⟩
      rw [hin', hin, and_assoc, hboth]

/-- The parts that do not matter for a command that stops the program may differ. -/
theorem congr {e₁ : Effect α} (h : Runs f x e) (hvalue : e.value = e₁.value)
    (hstops : e.stops ↔ e₁.stops) (hglobals : ¬e₁.stops → ∀ g, e.globals g = e₁.globals g)
    (hfails : ¬e₁.stops → (e.fails ↔ e₁.fails)) (hin : e.inFile ↔ e₁.inFile) : Runs f x e₁ := by
  intro s
  refine (h s).mono (fun a s' h => ?_) fun err s' h => ?_
  · obtain ⟨hgo, hval, hglob, hfail, hread⟩ := h
    have hgo₁ : ¬e₁.stops := mt hstops.mpr hgo
    refine ⟨hgo₁, hval.trans hvalue, hglob.trans (hglobals hgo₁ _), ?_, ?_⟩
    · rw [hfail, hfails hgo₁]
    · rw [hread, hin]
  · exact ⟨hstops.mp h.1, by rw [h.2, hin]⟩

/-- What is read may be stated in another way. -/
theorem inFile_iff {a : α} {S F P Q : Prop} {p : Globals → Globals} (h : Runs f x ⟨a, S, p, F, P⟩)
    (hPQ : P ↔ Q) : Runs f x ⟨a, S, p, F, Q⟩ :=
  h.congr rfl Iff.rfl (fun _ _ => rfl) (fun _ => Iff.rfl) hPQ

theorem pure (a : α) : Runs f (Pure.pure a) (.done a) :=
  fun _ => ⟨not_false, rfl, rfl, (or_iff_left not_false).symm, (and_iff_left trivial).symm⟩

/-- Nothing is read, and so all that is read is in the file. -/
theorem nothing (a : α) {P : Prop} (hP : P) : Runs f (Pure.pure a) (.reading a P) :=
  (pure a).inFile_iff (iff_of_true trivial hP)

theorem throw (a : α) (err : Stop) : Runs f (throw err) ⟨a, True, id, False, True⟩ :=
  fun _ => ⟨trivial, (and_iff_left trivial).symm⟩

theorem print (m : Msg) : Runs f (print m) ⟨(), False, id, m.isError = true, True⟩ := by
  refine fun s => ⟨not_false, rfl, rfl, ?_, (and_iff_left trivial).symm⟩
  simp only [Loader.Failed, List.mem_append, List.mem_singleton, or_and_right, exists_or,
    exists_eq_left]

/-- An error is printed, and nothing else is done. -/
theorem error {m : Msg} {F P : Prop} (hm : m.isError = true) (hF : F) (hP : P) :
    Runs f (ElfLoader.print m) ⟨(), False, id, F, P⟩ :=
  (print m).congr rfl Iff.rfl (fun _ _ => rfl) (fun _ => iff_of_true hm hF) (iff_of_true trivial hP)

theorem setGlobals (φ : Globals → Globals) :
    Runs f (modify fun s => { s with globals := φ s.globals }) ⟨(), False, φ, False, True⟩ :=
  fun _ => ⟨not_false, rfl, rfl, (or_iff_left not_false).symm, (and_iff_left trivial).symm⟩

/-- The turns of a loop from `i` on, up to the first that stops the program. -/
def turns (n : ℕ) (stops reads : ℕ → Prop) (φ : ℕ → Globals → Globals) (i : ℕ) : Effect Unit where
  value := ()
  stops := ∃ j, i ≤ j ∧ j < n ∧ stops j
  globals g := (List.range' i (n - i)).foldl (fun g i => φ i g) g
  fails := False
  inFile := ∀ j, i ≤ j → j < n → (∀ k, i ≤ k → k < j → ¬stops k) → reads j

theorem turns_end (n : ℕ) (stops reads : ℕ → Prop) (φ : ℕ → Globals → Globals) :
    Runs f (Pure.pure ()) (turns n stops reads φ n) := by
  refine (pure ()).congr rfl ?_ (fun _ g => ?_) (fun _ => Iff.rfl) ?_
  · refine ⟨False.elim, fun h => ?_⟩
    obtain ⟨j, hle, hlt, -⟩ := h
    omega
  · rw [turns, Nat.sub_self]
    rfl
  · refine ⟨fun _ j hle hlt => ?_, fun _ => trivial⟩
    omega

theorem turns_step {n i : ℕ} (hi : i < n) {stops reads : ℕ → Prop} {φ : ℕ → Globals → Globals}
    {y z : M Unit} (hy : Runs f y ⟨(), stops i, φ i, False, reads i⟩)
    (hz : Runs f z (turns n stops reads φ (i + 1))) :
    Runs f (y >>= fun _ => z) (turns n stops reads φ i) := by
  have hboth : Runs f (y >>= fun _ => z) (Effect.andThen _ _) := hy.bind hz
  refine hboth.congr rfl ?_ (fun _ g => ?_) (fun _ => or_self_iff) ?_
  · constructor
    · rintro (hstop | ⟨j, hle, hlt, hstop⟩)
      · exact ⟨i, le_rfl, hi, hstop⟩
      · exact ⟨j, by omega, hlt, hstop⟩
    · rintro ⟨j, hle, hlt, hstop⟩
      rcases hle.eq_or_lt with rfl | hlt'
      · exact .inl hstop
      · exact .inr ⟨j, hlt', hlt, hstop⟩
  · have hsplit : List.range' i (n - i) = i :: List.range' (i + 1) (n - (i + 1)) := by
      rw [← List.range'_succ, show n - (i + 1) + 1 = n - i by omega]
    show _ = (List.range' i (n - i)).foldl _ g
    rw [hsplit]
    rfl
  · constructor
    · rintro ⟨hfirst, hrest⟩ j hle hlt hbefore
      rcases hle.eq_or_lt with rfl | hlt'
      · exact hfirst
      · have hgo : ¬stops i := hbefore i le_rfl hlt'
        exact hrest.resolve_left hgo j hlt' hlt fun k hk => hbefore k (by omega)
    · intro h
      refine ⟨h i le_rfl hi fun k hle hlt => by omega, ?_⟩
      by_cases hstop : stops i
      · exact .inl hstop
      · refine .inr fun j hle hlt hbefore => h j (by omega) hlt fun k hk hkj => ?_
        rcases hk.eq_or_lt with rfl | hlt'
        · exact hstop
        · exact hbefore k hlt' hkj

/-- A message that is no error, and what comes after it. -/
theorem info {m : Msg} (hm : m.isError = false) (hx : Runs f x e) :
    Runs f (ElfLoader.print m >>= fun _ => x) e :=
  ((print m).bind hx).congr rfl (or_iff_right not_false) (fun _ _ => rfl)
    (fun _ => or_iff_right (Bool.eq_false_iff.mp hm))
    ((and_iff_right trivial).trans (or_iff_right not_false))

/-- An update of the globals, and what comes after it. -/
theorem update {a : α} {S F Q : Prop} {q : Globals → Globals} (p : Globals → Globals)
    (hx : Runs f x ⟨a, S, q, F, Q⟩) :
    Runs f ((modify fun s => { s with globals := p s.globals }) >>= fun _ => x)
      ⟨a, S, fun g => q (p g), F, Q⟩ := by
  have hboth : Runs f (_ >>= fun _ => x) (Effect.andThen _ _) := (setGlobals p).bind hx
  exact hboth.congr rfl (or_iff_right not_false) (fun _ _ => rfl) (fun _ => or_iff_right not_false)
    ((and_iff_right trivial).trans (or_iff_right not_false))

/-- A loop ends at the first turn that stops the program. -/
theorem forStep {n : ℕ} {body : ℕ → M Unit} {stops reads : ℕ → Prop} {φ : ℕ → Globals → Globals}
    (hbody : ∀ i < n, Runs f (body i) ⟨(), stops i, φ i, False, reads i⟩) :
    Runs f (Cmd.forStep n 1 body n 0) ⟨(), ∃ i < n, stops i,
      fun g => (List.range n).foldl (fun g i => φ i g) g, False,
      ∀ i < n, (∀ j < i, ¬stops j) → reads i⟩ := by
  have hrun : Runs f (Cmd.forStep n 1 body n 0) (turns n stops reads φ 0) :=
    Cmd.forStep_induction (R := fun i x => Runs f x (turns n stops reads φ i))
      (turns_end n stops reads φ) fun i hi _ ih => turns_step hi (hbody i hi) ih
  refine hrun.congr rfl ?_ (fun _ g => ?_) (fun _ => Iff.rfl) ?_
  · simp only [turns, Nat.zero_le, true_and]
  · rw [turns, List.range_eq_range', Nat.sub_zero]
  · simp only [turns, Nat.zero_le, true_imp_iff]

/-- A loop that only reads. -/
theorem forRead {n : ℕ} {body : ℕ → M Unit} {reads : ℕ → Prop}
    (hbody : ∀ i < n, Runs f (body i) (.reading () (reads i))) :
    Runs f (Cmd.forStep n 1 body n 0) (.reading () (∀ i < n, reads i)) := by
  have hrun : Runs f (Cmd.forStep n 1 body n 0) _ := forStep hbody
  refine hrun.congr rfl ?_ (fun _ g => ?_) (fun _ => Iff.rfl) ?_
  · exact ⟨fun h => h.elim fun _ h => h.2, False.elim⟩
  · exact List.foldl_fixed' (fun _ => rfl) _
  · exact forall₂_congr fun i _ => imp_iff_right fun _ _ => not_false

end Runs

/-! ## Reading -/

namespace File

variable (f : File)

/-- The bytes from `a` on are these. -/
def agrees (a : U64) : List Byte → Bool
  | [] => true
  | b :: bs => f.bytes a = b && agrees (a + 1) bs

/-- The signature of an ELF file of one of the two classes. -/
def signature (cls : Byte) : Bool := f.agrees 0 [0x7F, 0x45, 0x4C, 0x46, cls]

theorem signature_cls {cls : Byte} (h : f.signature cls = true) : f.bytes 4 = cls := by
  simp only [signature, agrees, Bool.and_eq_true, decide_eq_true_eq] at h
  exact h.2.2.2.2.1

/-- The bytes of the field of the header at `a` are in the file. -/
def FieldIn (a : U64) (x : Field) : Prop :=
  ∀ i < x.width, a + BitVec.ofNat 64 (x.off + i) < f.size

/-- The header of the file is in the file. -/
structure HeaderIn (T : Layout) : Prop where
  eEntry : f.FieldIn 0 T.eEntry
  ePhoff : f.FieldIn 0 T.ePhoff
  eShoff : f.FieldIn 0 T.eShoff
  ePhnum : f.FieldIn 0 T.ePhnum
  eShnum : f.FieldIn 0 T.eShnum
  eShstrndx : f.FieldIn 0 T.eShstrndx

/-- What a comparison looks at is in the file. -/
def ComparedIn (a : U64) : List Byte → Prop
  | [] => True
  | b :: bs => a < f.size ∧ (f.bytes a = b → ComparedIn (a + 1) bs)

end File

section Reading

variable {α β : Type} {f : File} {x : M α} {a : α} {P : Prop} {k : α → M β}

/-- A command that only reads, and what is done with its value. -/
theorem Runs.read {b : β} {S F Q : Prop} {φ : Globals → Globals} (hx : Runs f x (.reading a P))
    (hk : Runs f (k a) ⟨b, S, φ, F, Q⟩) : Runs f (x >>= k) ⟨b, S, φ, F, P ∧ Q⟩ :=
  (hx.bind hk).congr rfl (or_iff_right not_false) (fun _ _ => rfl)
    (fun _ => or_iff_right not_false) (and_congr_right fun _ => or_iff_right not_false)

theorem Runs.ite {c : Prop} [Decidable c] {y : M α} {e : Effect α} (hx : c → Runs f x e)
    (hy : ¬c → Runs f y e) : Runs f (if c then x else y) e :=
  iteInduction (motive := fun x => Runs f x e) hx hy

theorem inFile_append (s : Loader) (os : List U64) :
    Loader.InFile f { s with reads := s.reads ++ os } ↔ s.InFile f ∧ ∀ o ∈ os, o < f.size :=
  List.forall_mem_append

theorem runs_get (a : U64) (x : Field) :
    Runs f (get f a x) (.reading (f.field a x) (f.FieldIn a x)) := by
  refine fun s => ⟨not_false, rfl, rfl, (or_iff_left not_false).symm, ?_⟩
  refine (inFile_append s _).trans (and_congr_right fun _ => ?_)
  simp only [List.forall_mem_map, List.mem_range]
  rfl

theorem runs_getByte (a : U64) : Runs f (getByte f a) (.reading (f.bytes a) (a < f.size)) := by
  refine fun s => ⟨not_false, rfl, rfl, (or_iff_left not_false).symm, ?_⟩
  refine (inFile_append s _).trans (and_congr_right fun _ => ?_)
  exact List.forall_mem_singleton

/-- A field that is known to be in the file. -/
theorem Runs.readIn {a : U64} {x : Field} {k : U64 → M β} {e : Effect β} (hx : f.FieldIn a x)
    (hk : Runs f (k (f.field a x)) e) : Runs f (get f a x >>= k) e :=
  ((runs_get a x).read hk).inFile_iff (and_iff_right hx)

theorem runs_compare (a : U64) (bs : List Byte) :
    Runs f (compare f a bs) (.reading (f.agrees a bs) (f.ComparedIn a bs)) := by
  induction bs generalizing a with
  | nil => exact Runs.pure true
  | cons b bs ih =>
    refine (runs_getByte a).read (Runs.ite (fun hb => ?_) fun hb => ?_)
    · rw [File.agrees, decide_eq_true hb, Bool.true_and]
      exact (ih (a + 1)).inFile_iff (imp_iff_right hb).symm
    · rw [File.agrees, decide_eq_false hb, Bool.false_and]
      exact Runs.nothing false fun hb' => absurd hb' hb

/-- The bytes up to the first whose index an `int` cannot go past. -/
theorem runs_pushBack (buf : U64) {n i : ℕ} (hi : i < 2 ^ 31) :
    Runs f (pushBack f buf n i)
      ⟨(List.range' i n).map fun j => f.bytes (buf + BitVec.ofNat 64 j), 2 ^ 31 ≤ i + n, id, False,
        ∀ j, i ≤ j → j < min (i + n) (2 ^ 31) → buf + BitVec.ofNat 64 j < f.size⟩ := by
  induction n generalizing i with
  | zero =>
    refine (Runs.pure []).congr rfl (iff_of_false not_false (by omega)) (fun _ _ => rfl)
      (fun _ => Iff.rfl) (iff_of_true trivial fun j hle hlt => ?_)
    omega
  | succ n ih =>
    have hbody : Runs f (pushBack f buf (n + 1) i)
        ⟨(List.range' i (n + 1)).map fun j => f.bytes (buf + BitVec.ofNat 64 j),
          2 ^ 31 ≤ i + 1 + n, id, False, buf + BitVec.ofNat 64 i < f.size ∧
            ∀ j, i + 1 ≤ j → j < min (i + 1 + n) (2 ^ 31) → buf + BitVec.ofNat 64 j < f.size⟩ := by
      refine (runs_getByte _).read (Runs.ite (fun hlast => ?_) fun hlast => ?_)
      · refine (Runs.throw _ _).congr rfl (iff_of_true trivial (by omega)) (fun _ _ => rfl)
          (fun _ => Iff.rfl) (iff_of_true trivial fun j hle hlt => ?_)
        omega
      · have hcons : Runs f (pushBack f buf n (i + 1) >>= fun bs =>
            pure (f.bytes (buf + BitVec.ofNat 64 i) :: bs)) (Effect.andThen _ _) :=
          (ih (by omega)).bind (Runs.pure _)
        refine hcons.congr ?_ (or_iff_left not_false) (fun _ _ => rfl) (fun _ => or_self_iff)
          (and_iff_left (.inr trivial))
        rw [List.range'_succ, List.map_cons]
        rfl
    refine hbody.congr rfl (by rw [Nat.add_right_comm, Nat.add_assoc]) (fun _ _ => rfl)
      (fun _ => Iff.rfl) ⟨fun h j hle hlt => ?_, fun h => ⟨h i le_rfl (by omega), ?_⟩⟩
    · rcases hle.eq_or_lt with rfl | hlt'
      · exact h.1
      · exact h.2 j hlt' (by omega)
    · exact fun j hle hlt => h j (by omega) (by omega)

end Reading

end Cheshire.ElfLoader
