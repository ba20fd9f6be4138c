import Mathlib.Data.List.Induction
import Mathlib.Logic.Function.Basic

/-!
# Register blocks

A register block answers one request in each cycle. It compares the address with the offset of
each register. An address without a register is an error if the block is told so, and a write is
one if it leaves out a byte of its register. Everything else reads or writes the register.

A register is *stored*, in a flip-flop that both software and hardware write, or it shows a value
of the hardware. `Subreg` is what the block relies on from the flip-flop.

**Theorem (`RegBlock.run_apply`).** After any run a stored register has its last update: the data
of the last write that was accepted there, or what the hardware has loaded after it.
-/

namespace Lib

/-- A request on a register port. -/
structure RegReq (w : ℕ) where
  valid : Bool
  write : Bool
  addr : BitVec w
  wdata : BitVec 32
  wstrb : BitVec 4

namespace RegReq

variable {w : ℕ} (r : RegReq w)

def we : Bool := r.valid && r.write

def re : Bool := r.valid && !r.write

variable {r}

theorem we_of_re (h : r.re = true) : r.we = false := by
  unfold re at h
  unfold we
  cases hw : r.write with
  | true => rw [hw] at h; simp at h
  | false => exact Bool.and_false _

end RegReq

/-- The answer to a request. -/
structure RegRsp where
  rdata : BitVec 32
  error : Bool
deriving DecidableEq

/-- The flip-flop of a register: its next value, by the write enable and data of the software, the
enable and data of the hardware, and its value. -/
structure Subreg where
  next : {n : ℕ} → Bool → BitVec n → Bool → BitVec n → BitVec n → BitVec n
  write {n : ℕ} (wd : BitVec n) (de : Bool) (d q : BitVec n) : next true wd de d q = wd
  load {n : ℕ} (wd d q : BitVec n) : next false wd true d q = d
  hold {n : ℕ} (wd d q : BitVec n) : next false wd false d q = q

/-- A multiplexer in front of a flip-flop. -/
def Subreg.mux : Subreg where
  next we wd de d q := if we then wd else if de then d else q
  write _ _ _ _ := rfl
  load _ _ _ := rfl
  hold _ _ _ := rfl

/-- What the hardware drives into a register. -/
structure HwPort (n : ℕ) where
  de : Bool
  d : BitVec n

/-- The registers of a block, in the order in which it looks for a hit. -/
structure RegBlock (ι : Type*) where
  aw : ℕ
  regs : List ι
  offset : ι → BitVec aw
  permit : ι → BitVec 4
  width : ι → ℕ
  stored : ι → Bool
  complete : ∀ i, i ∈ regs
  apart : Function.Injective offset

namespace RegBlock

variable {ι : Type*} (B : RegBlock ι) {w : ℕ}

/-! ## One cycle -/

def addr (r : RegReq w) : BitVec B.aw := r.addr.setWidth B.aw

def hit (r : RegReq w) (i : ι) : Bool := B.addr r == B.offset i

def addrmiss (r : RegReq w) : Bool := if r.re || r.we then !B.regs.any (B.hit r) else false

def wrErr (r : RegReq w) : Bool :=
  r.we && B.regs.any fun i => B.hit r i && (B.permit i &&& ~~~r.wstrb) != 0

def error (devmode : Bool) (r : RegReq w) : Bool := (devmode && B.addrmiss r) || B.wrErr r

/-- The write enable of a register. -/
def we (devmode : Bool) (r : RegReq w) (i : ι) : Bool :=
  B.hit r i && r.we && !B.error devmode r

def wd (r : RegReq w) (i : ι) : BitVec (B.width i) := r.wdata.setWidth (B.width i)

/-- The values of the registers. -/
abbrev Values := (i : ι) → BitVec (B.width i)

/-- What the hardware drives. -/
abbrev Hw := (i : ι) → HwPort (B.width i)

/-- What a register reads as. -/
def qs (q : B.Values) (hw : B.Hw) (i : ι) : BitVec (B.width i) :=
  if B.stored i then q i else (hw i).d

def rdata (q : B.Values) (hw : B.Hw) (r : RegReq w) : BitVec 32 :=
  match B.regs.find? (B.hit r) with
  | some i => (B.qs q hw i).setWidth 32
  | none => BitVec.allOnes 32

def rsp (devmode : Bool) (q : B.Values) (hw : B.Hw) (r : RegReq w) : RegRsp :=
  ⟨B.rdata q hw r, B.error devmode r⟩

def next (S : Subreg) (devmode : Bool) (hw : B.Hw) (r : RegReq w) (q : B.Values) : B.Values :=
  fun i =>
    if B.stored i then S.next (B.we devmode r i) (B.wd r i) (hw i).de (hw i).d (q i) else q i

/-! ## What a request does -/

variable {B} {r : RegReq w} {i : ι} {devmode : Bool}

theorem hit_iff : B.hit r i = true ↔ B.addr r = B.offset i := beq_iff_eq

/-- Two registers are never hit by one request. -/
theorem hit_unique {j : ι} (hi : B.hit r i = true) (hj : B.hit r j = true) : i = j :=
  B.apart ((hit_iff.1 hi).symm.trans (hit_iff.1 hj))

theorem any_hit {p : ι → Bool} (hi : B.hit r i = true) :
    (B.regs.any fun j => B.hit r j && p j) = p i := by
  rw [Bool.eq_iff_iff, List.any_eq_true]
  constructor
  · rintro ⟨j, -, hj⟩
    obtain ⟨hj, hp⟩ := Bool.and_eq_true_iff.1 hj
    rw [hit_unique hi hj]
    exact hp
  · intro hp
    exact ⟨i, B.complete i, Bool.and_eq_true_iff.2 ⟨hi, hp⟩⟩

theorem addrmiss_of_hit (hi : B.hit r i = true) : B.addrmiss r = false := by
  have hany : B.regs.any (B.hit r) = true := List.any_eq_true.2 ⟨i, B.complete i, hi⟩
  unfold addrmiss
  rw [hany]
  exact ite_self _

theorem error_of_hit (hi : B.hit r i = true) :
    B.error devmode r = (r.we && (B.permit i &&& ~~~r.wstrb) != 0) := by
  unfold error wrErr
  rw [addrmiss_of_hit hi, any_hit hi, Bool.and_false, Bool.false_or]

/-- The write is for register `i`, and has all its bytes. -/
def Accepted (B : RegBlock ι) (r : RegReq w) (i : ι) : Prop :=
  r.we = true ∧ B.addr r = B.offset i ∧ B.permit i &&& ~~~r.wstrb = 0

instance : Decidable (B.Accepted r i) := inferInstanceAs (Decidable (_ ∧ _ ∧ _))

theorem we_iff : B.we devmode r i = true ↔ B.Accepted r i := by
  unfold we Accepted
  rw [Bool.and_eq_true_iff, Bool.and_eq_true_iff, hit_iff]
  constructor
  · rintro ⟨⟨hi, hwe⟩, herr⟩
    rw [error_of_hit (hit_iff.2 hi), hwe, Bool.true_and, Bool.not_eq_true', bne_eq_false_iff_eq]
      at herr
    exact ⟨hwe, hi, herr⟩
  · rintro ⟨hwe, hi, hp⟩
    refine ⟨⟨hi, hwe⟩, ?_⟩
    rw [error_of_hit (hit_iff.2 hi), hp]
    simp

/-- An error is an address without a register, if the block is told so, or a write that leaves out
a byte. -/
theorem error_iff : B.error devmode r = true ↔
    (devmode = true ∧ r.valid = true ∧ ∀ i, B.addr r ≠ B.offset i) ∨
      r.we = true ∧ ∃ i, B.addr r = B.offset i ∧ B.permit i &&& ~~~r.wstrb ≠ 0 := by
  by_cases hhit : ∃ i, B.hit r i = true
  · obtain ⟨i, hi⟩ := hhit
    rw [error_of_hit hi, Bool.and_eq_true_iff, bne_iff_ne]
    constructor
    · intro h
      exact Or.inr ⟨h.1, i, hit_iff.1 hi, h.2⟩
    · rintro (⟨-, -, hnot⟩ | ⟨hwe, j, hj, hp⟩)
      · exact absurd (hit_iff.1 hi) (hnot i)
      · rw [hit_unique hi (hit_iff.2 hj)]
        exact ⟨hwe, hp⟩
  · have hnone (i : ι) : B.hit r i = false := Bool.eq_false_iff.2 fun h => hhit ⟨i, h⟩
    have hany (p : ι → Bool) : (B.regs.any fun j => B.hit r j && p j) = false :=
      List.any_eq_false.2 fun j _ => by rw [hnone j]; simp
    have hany' : B.regs.any (B.hit r) = false :=
      List.any_eq_false.2 fun j _ => by rw [hnone j]; simp
    have hoff (i : ι) : B.addr r ≠ B.offset i := fun h => hhit ⟨i, hit_iff.2 h⟩
    have hvalid : (r.re || r.we) = r.valid := by
      unfold RegReq.re RegReq.we
      cases r.valid <;> cases r.write <;> rfl
    unfold error wrErr addrmiss
    rw [hany, hany', hvalid]
    constructor
    · intro h
      refine Or.inl ?_
      cases devmode <;> cases hv : r.valid <;> simp [hv] at h
      exact ⟨rfl, rfl, hoff⟩
    · rintro (⟨rfl, hv, -⟩ | ⟨-, i, hi, -⟩)
      · simp [hv]
      · exact absurd hi (hoff i)

theorem rdata_of_hit (q : B.Values) (hw : B.Hw) (hi : B.addr r = B.offset i) :
    B.rdata q hw r = (B.qs q hw i).setWidth 32 := by
  have hfind : B.regs.find? (B.hit r) = some i := by
    cases hf : B.regs.find? (B.hit r) with
    | none => exact absurd (hit_iff.2 hi) (List.find?_eq_none.1 hf i (B.complete i))
    | some j => rw [hit_unique (List.find?_some hf) (hit_iff.2 hi)]
  unfold rdata
  rw [hfind]

/-- What a register answers. -/
theorem rsp_of_hit (q : B.Values) (hw : B.Hw) (hi : B.addr r = B.offset i) :
    B.rsp devmode q hw r =
      ⟨(B.qs q hw i).setWidth 32, r.we && (B.permit i &&& ~~~r.wstrb) != 0⟩ := by
  unfold rsp
  rw [rdata_of_hit q hw hi, error_of_hit (hit_iff.2 hi)]

/-- What the block answers where it has no register. -/
theorem rsp_of_miss (q : B.Values) (hw : B.Hw) (hv : r.valid = true)
    (hnone : ∀ i, B.addr r ≠ B.offset i) : B.rsp devmode q hw r = ⟨BitVec.allOnes 32, devmode⟩ := by
  have hmiss (i : ι) : B.hit r i = false := Bool.eq_false_iff.2 fun h => hnone i (hit_iff.1 h)
  have hfind : B.regs.find? (B.hit r) = none :=
    List.find?_eq_none.2 fun i _ => by simp [hmiss i]
  have herr : B.error devmode r = devmode := by
    rw [Bool.eq_iff_iff, error_iff]
    constructor
    · rintro (⟨hdev, -, -⟩ | ⟨-, i, hi, -⟩)
      · exact hdev
      · exact absurd hi (hnone i)
    · exact fun hdev => Or.inl ⟨hdev, hv, hnone⟩
  unfold rsp rdata
  rw [hfind, herr]

/-! ## Runs -/

/-- One cycle: a request, and what the hardware drives meanwhile. -/
structure Cycle (B : RegBlock ι) (w : ℕ) where
  req : RegReq w
  hw : B.Hw

/-- The update of register `i` in a cycle. A write goes before what the hardware loads. -/
def update (B : RegBlock ι) (i : ι) (c : B.Cycle w) : Option (BitVec (B.width i)) :=
  if B.Accepted c.req i then some (B.wd c.req i)
  else if (c.hw i).de then some (c.hw i).d
  else none

variable (B) in
def run (S : Subreg) (devmode : Bool) (q : B.Values) (cs : List (B.Cycle w)) : B.Values :=
  cs.foldl (fun q c => B.next S devmode c.hw c.req q) q

theorem next_apply (S : Subreg) (hst : B.stored i = true) (c : B.Cycle w) (q : B.Values) :
    B.next S devmode c.hw c.req q i = (B.update i c).getD (q i) := by
  unfold next update
  rw [if_pos hst]
  split_ifs with hacc hde
  · rw [we_iff.2 hacc, S.write]
    rfl
  · rw [Bool.eq_false_iff.2 fun h => hacc (we_iff.1 h), hde, S.load]
    rfl
  · rw [Bool.eq_false_iff.2 fun h => hacc (we_iff.1 h), Bool.eq_false_iff.2 hde, S.hold]
    rfl

/-- **Main result.** A register has its last update. -/
theorem run_apply (S : Subreg) (hst : B.stored i = true) (q : B.Values) (cs : List (B.Cycle w)) :
    B.run S devmode q cs i = ((cs.filterMap (B.update i)).getLast?).getD (q i) := by
  induction cs using List.reverseRecOn with
  | nil => rfl
  | append_singleton cs c ih =>
    have hstep : B.run S devmode q (cs ++ [c]) i =
        (B.update i c).getD (B.run S devmode q cs i) := by
      unfold run
      rw [List.foldl_append]
      exact next_apply S hst c _
    rw [hstep, ih, List.filterMap_append]
    cases hu : B.update i c with
    | none => simp [hu]
    | some v => simp [hu]

end RegBlock

end Lib
