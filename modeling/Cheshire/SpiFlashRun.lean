import Cheshire.Lib.Monitor
import Cheshire.SpiFlash
import Mathlib.Tactic.Ring

/-!
# The transactions of a flash run

A monitor reads the transactions of the driver (`watch`): erases and programs follow a write enable,
and then the flash is busy until its status is read as ready without an error. The erases and
programs of a run are the first ones of a plan (`plan`).

**Theorem (`singleFlash_disciplined`).** Every erase and program follows a write enable and finds
the flash ready. After a failure, or an error in the status of a ready flash, there are no more of
them. Erases come before programs in each sector, and a run that returns 0 programs every page of
the range once, in order.
-/

namespace Cheshire.SpiFlash

open Lib Cmd

/-! ## Erases and programs -/

/-- An erase or a program. -/
structure Op where
  opcode : Byte
  address : ℕ
  data : List Byte
deriving DecidableEq

def opcodeOf : List Segment → Option Byte
  | .opcode b :: _ => some b
  | _ => none

def addressOf (segs : List Segment) : ℕ :=
  (segs.findSome? fun
    | .address a => some a.toNat
    | _ => none).getD 0

def dataOf (segs : List Segment) : List Byte :=
  (segs.findSome? fun
    | .tx data => some data
    | _ => none).getD []

def opOf (segs : List Segment) : Option Op :=
  match opcodeOf segs with
  | some b => if b = 0x21 ∨ b = 0xDC ∨ b = 0x12 then some ⟨b, addressOf segs, dataOf segs⟩ else none
  | none => none

namespace Entry

variable (e : Entry)

/-- A write enable. -/
def IsWen : Prop := e.segs = [.opcode 0x06]

/-- A successful read of the status. -/
def IsStatus : Prop := opcodeOf e.segs = some 0x05 ∧ e.result = 0

/-- The status is that of a ready flash without errors. -/
def Clean : Prop := e.IsStatus ∧ e.rx 0 &&& 1 = 0 ∧ e.rx 0 &&& 0x60 = 0

/-- A failing transaction, or an error in the status of a ready flash. -/
def Stops : Prop := e.result ≠ 0 ∨ e.IsStatus ∧ e.rx 0 &&& 1 = 0 ∧ e.rx 0 &&& 0x60 ≠ 0

instance : Decidable e.IsWen := inferInstanceAs (Decidable (_ = _))

instance : Decidable e.IsStatus := inferInstanceAs (Decidable (_ ∧ _))

instance : Decidable e.Clean := inferInstanceAs (Decidable (_ ∧ _))

instance : Decidable e.Stops := inferInstanceAs (Decidable (_ ∨ _))

/-- The erase or program of a transaction. -/
def op : Option Op := opOf e.segs

end Entry

/-- The erases and programs of a log. -/
def ops (log : List Entry) : List Op := log.filterMap Entry.op

/-! ## The monitor -/

inductive Phase
  | idle
  /-- After a write enable. -/
  | armed
  /-- After an erase or a program. -/
  | busy
  | stopped
deriving DecidableEq, Repr

/-- What a transaction leads to. -/
def Phase.next (e : Entry) : Phase → Option Phase
  | .idle =>
    if e.op.isSome then none
    else if e.Stops then some .stopped
    else if e.IsWen then some .armed
    else some .idle
  | .armed =>
    if e.Stops then some .stopped
    else if e.op.isSome then some .busy
    else if e.IsWen then some .armed
    else some .idle
  | .busy =>
    if e.op.isSome ∨ e.IsWen then none
    else if e.Stops then some .stopped
    else if e.Clean then some .idle
    else some .busy
  | .stopped => none

def watch : Monitor Phase Entry := ⟨fun p e => p.next e⟩

section Watch

variable {p q : Phase} {e e₁ e₂ : Entry} {pre mid post : List Entry}

/-- What an accepted transaction needs, and what it leads to. -/
structure Accepted (p : Phase) (e : Entry) (q : Phase) : Prop where
  running : p ≠ .stopped
  armed : e.op.isSome → p = .armed
  stops : e.Stops → q = .stopped
  /-- A write enable leads to `armed`, and nothing else does. -/
  wen : q = .armed → e.IsWen
  busy : e.op.isSome → q = .busy ∨ q = .stopped
  /-- The flash stays busy until its status is clean. -/
  stays : p = .busy → ¬e.Clean → q = .busy ∨ q = .stopped

theorem step_accepted (h : watch.step p e = some q) : Accepted p e q := by
  change p.next e = some q at h
  cases p with
  | stopped => cases h
  | _ =>
    rw [Phase.next] at h
    split_ifs at h <;> cases h <;> constructor <;> simp_all

/-- Nothing is accepted after the run has been stopped. -/
theorem stopped_nil (h : watch.run .stopped post = some q) : post = [] ∧ q = .stopped := by
  cases post with
  | nil => exact ⟨rfl, (Option.some.inj h).symm⟩
  | cons e post => exact (Option.some_ne_none q h.symm).elim

/-! ## What the monitor accepts -/

/-- Every erase and program comes right after a write enable. -/
theorem wen_before (h : watch.run .idle (pre ++ e :: post) = some q) (hop : e.op.isSome) :
    ∃ pre' w, pre = pre' ++ [w] ∧ w.IsWen := by
  obtain ⟨p, q', hpre, he, -⟩ := Monitor.run_around h
  obtain rfl := (step_accepted he).armed hop
  obtain ⟨pre', w, p', hlast, -, hw⟩ := Monitor.run_last hpre (by decide)
  exact ⟨pre', w, hlast, (step_accepted hw).wen rfl⟩

/-- Between two of them the flash has been ready without errors. -/
theorem clean_between (h : watch.run .idle (pre ++ e₁ :: (mid ++ e₂ :: post)) = some q)
    (hop₁ : e₁.op.isSome) (hop₂ : e₂.op.isSome) : ∃ r ∈ mid, r.Clean := by
  obtain ⟨p, p₁, -, he₁, hrest⟩ := Monitor.run_around h
  obtain ⟨p₂, q', hmid, he₂, -⟩ := Monitor.run_around hrest
  obtain rfl := (step_accepted he₂).armed hop₂
  by_contra hnone
  have hstays : ∀ r ∈ mid, ∀ p q, p = .busy ∨ p = .stopped → watch.step p r = some q →
      q = .busy ∨ q = .stopped := by
    intro r hr p q hp hstep
    have hacc := step_accepted hstep
    exact hacc.stays (hp.resolve_right hacc.running) fun hc => hnone ⟨r, hr, hc⟩
  have hbusy := Monitor.run_invariant hstays ((step_accepted he₁).busy hop₁) hmid
  exact absurd hbusy (by decide)

/-- A transaction that stops the run is the last one. -/
theorem stops_last (h : watch.run .idle (pre ++ e :: post) = some q) (hs : e.Stops) :
    post = [] ∧ q = .stopped := by
  obtain ⟨p, q', -, he, hpost⟩ := Monitor.run_around h
  obtain rfl := (step_accepted he).stops hs
  exact stopped_nil hpost

end Watch

/-! ## What the driver does in each phase -/

section Next

variable {segs : List Segment} (c : CInt) (rx : ℕ → Byte)

/-- Unless the status is read, only a failure stops the run. -/
theorem stops_next (h : opcodeOf segs ≠ some 0x05) (q : Phase) :
    (if Entry.Stops ⟨segs, c, rx⟩ then some .stopped else some q) =
      some (if c = 0 then q else .stopped) := by
  have hstops : Entry.Stops ⟨segs, c, rx⟩ ↔ c ≠ 0 :=
    ⟨fun hs => hs.resolve_right fun hst => h hst.1.1, .inl⟩
  by_cases hc : c = 0
  · rw [if_neg fun h => hstops.1 h hc, if_pos hc]
  · rw [if_pos (hstops.2 hc), if_neg hc]

theorem wen_next : Phase.next ⟨[.opcode 0x06], c, rx⟩ .idle =
    some (if c = 0 then .armed else .stopped) := by
  have hop : ¬(Entry.op ⟨[.opcode 0x06], c, rx⟩).isSome := Bool.false_ne_true
  have hwen : Entry.IsWen ⟨[.opcode 0x06], c, rx⟩ := rfl
  rw [Phase.next, if_neg hop, if_pos hwen]
  exact stops_next c rx (by decide) .armed

theorem op_next (hop : (opOf segs).isSome) :
    Phase.next ⟨segs, c, rx⟩ .armed = some (if c = 0 then .busy else .stopped) := by
  have hop' : (Entry.op ⟨segs, c, rx⟩).isSome := hop
  have hst : opcodeOf segs ≠ some 0x05 := by
    intro h
    rw [opOf, h] at hop
    exact Bool.false_ne_true hop
  rw [Phase.next, if_pos hop']
  exact stops_next c rx hst .busy

/-- Neither an erase nor a program, nor a write enable, nor a status read. -/
theorem other_next (hop : opOf segs = none) (hwen : segs ≠ [.opcode 0x06])
    (hst : opcodeOf segs ≠ some 0x05) :
    Phase.next ⟨segs, c, rx⟩ .armed = some (if c = 0 then .idle else .stopped) := by
  have hop' : ¬(Entry.op ⟨segs, c, rx⟩).isSome := by
    rw [Entry.op, hop]
    exact Bool.false_ne_true
  have hwen' : ¬Entry.IsWen ⟨segs, c, rx⟩ := hwen
  rw [Phase.next, if_neg hop', if_neg hwen']
  exact stops_next c rx hst .idle

theorem read_next {e : Entry} {p : Phase} (hop : ¬e.op.isSome) (hwen : ¬e.IsWen)
    (hp : p = .idle ∨ p = .busy) :
    p.next e = some (if e.Stops then .stopped else if e.Clean then .idle else p) := by
  rcases hp with rfl | rfl
  · rw [Phase.next, if_neg hop, if_neg hwen, ite_self]
    split_ifs <;> rfl
  · rw [Phase.next, if_neg (not_or.2 ⟨hop, hwen⟩)]
    split_ifs <;> rfl

theorem status_next {p : Phase} (hp : p = .idle ∨ p = .busy) :
    Phase.next ⟨[.opcode 0x05, .rx 1], c, rx⟩ p = some (if c ≠ 0 then .stopped
      else if rx 0 &&& 1 ≠ 0 then p else if rx 0 &&& 0x60 = 0 then .idle else .stopped) := by
  have hwen : ¬Entry.IsWen ⟨[.opcode 0x05, .rx 1], c, rx⟩ := by
    intro h
    rw [Entry.IsWen] at h
    exact absurd (List.cons.inj h).2 (List.cons_ne_nil _ _)
  have hop : ¬(Entry.op ⟨[.opcode 0x05, .rx 1], c, rx⟩).isSome := Bool.false_ne_true
  rw [read_next hop hwen hp]
  congr 1
  by_cases hc : c = 0
  · have hstatus : Entry.IsStatus ⟨[.opcode 0x05, .rx 1], c, rx⟩ := ⟨rfl, hc⟩
    rw [if_neg (not_not.2 hc)]
    by_cases hbusy : rx 0 &&& 1 = 0
    · rw [if_neg (not_not.2 hbusy)]
      by_cases herr : rx 0 &&& 0x60 = 0
      · rw [if_neg fun h => h.elim (· hc) (·.2.2 herr), if_pos ⟨hstatus, hbusy, herr⟩, if_pos herr]
      · rw [if_pos (.inr ⟨hstatus, hbusy, herr⟩), if_neg herr]
    · rw [if_neg fun h => h.elim (· hc) fun h => hbusy h.2.1, if_neg fun h => hbusy h.2.1,
        if_pos hbusy]
  · rw [if_pos (.inl hc), if_pos hc]

end Next

/-! ## The plan -/

/-- The 4 KiB erases of sector `k`, at the beginning and at the end of 64 sectors. -/
def overlay (k : ℕ) : List Op :=
  if k % 64 = 63 then
    (List.range 8).map fun i => ⟨0x21, k * 2 ^ 18 + (2 ^ 18 - 8 * 4096) + 4096 * i, []⟩
  else if k % 64 = 0 then (List.range 8).map fun i => ⟨0x21, k * 2 ^ 18 + 4096 * i, []⟩
  else []

def pages (mem : Mem) (buf : U64) (k : ℕ) : List Op :=
  (List.range 1024).map fun i =>
    ⟨0x12, k * 2 ^ 18 + 256 * i, bytesAt mem (buf + BitVec.ofNat 64 (256 * i)) 256⟩

def sectorPlan (mem : Mem) (buf : U64) (k : ℕ) : List Op :=
  overlay k ++ (⟨0xDC, k * 2 ^ 18, []⟩ :: pages mem buf k)

/-- The erases and programs for `num` sectors. -/
def plan (mem : Mem) (buf : U64) (sector num : ℕ) : List Op :=
  (List.range num).flatMap fun s =>
    sectorPlan mem (buf + BitVec.ofNat 64 (s <<< 18)) (sector + s)

/-! ## Runs -/

/-- The log is accepted, up to phase `p`, and its erases and programs are `A`. -/
structure Done (A : List Op) (p : Phase) (log : List Entry) : Prop where
  run : watch.run .idle log = some p
  ops : ops log = A

/-- What holds when a run that follows the plan `P` is left. -/
structure Left (P : List Op) (e : Exit) (log : List Entry) : Prop where
  run : ∃ p, watch.run .idle log = some p ∧ (e = .running → p ≠ .stopped)
  ops : SpiFlash.ops log <+: P
  code : ∀ c, e = .code c → c ≠ 0

section Run

variable {bus : Bus} {fuel : ℕ} {segs : List Segment} {A P : List Op} {p : Phase}

theorem ops_concat (log : List Entry) (e : Entry) : ops (log ++ [e]) = ops log ++ e.op.toList := by
  rw [ops, ops, List.filterMap_append]
  congr 1

theorem transaction_done {q : CInt → (ℕ → Byte) → Phase}
    (hnext : ∀ c rx, p.next ⟨segs, c, rx⟩ = some (q c rx))
    (hP : A ++ (opOf segs).toList <+: P) : Triple (Done A p) (transaction bus segs)
      (fun rx => Done (A ++ (opOf segs).toList) (q 0 rx)) (Left P) := by
  intro log h
  have hrun := Monitor.run_concat h.run (hnext (bus log.length).result (bus log.length).rx)
  have hops : ops (log ++ [⟨segs, (bus log.length).result, (bus log.length).rx⟩]) =
      A ++ (opOf segs).toList := by
    rw [ops_concat, h.ops]
    rfl
  unfold transaction
  by_cases hres : (bus log.length).result = 0
  · rw [if_pos hres]
    rw [hres] at hrun hops ⊢
    exact ⟨hrun, hops⟩
  · rw [if_neg hres]
    refine ⟨⟨_, hrun, fun h => Exit.noConfusion h⟩, hops ▸ hP, fun c hc => ?_⟩
    exact Exit.code.inj hc ▸ hres

/-- A transaction that is neither an erase nor a program. -/
theorem transaction_quiet {q : CInt → (ℕ → Byte) → Phase} (hop : opOf segs = none)
    (hnext : ∀ c rx, p.next ⟨segs, c, rx⟩ = some (q c rx)) (hP : A <+: P) :
    Triple (Done A p) (transaction bus segs) (fun rx => Done A (q 0 rx)) (Left P) := by
  have hlist : A ++ (opOf segs).toList = A := by
    rw [hop]
    exact List.append_nil A
  have h := @transaction_done bus segs A P p q hnext (hlist.symm ▸ hP)
  rw [hlist] at h
  exact h

theorem error_eq_zero (b : Byte) : (b &&& 0x60).setWidth 32 = (0 : CInt) ↔ b &&& 0x60 = 0 := by
  revert b
  decide

/-- Waiting for a flash that is ready, or busy. -/
theorem pollWip_done (hp : p = .idle ∨ p = .busy) (hP : A <+: P) :
    Triple (Done A p) (pollWip bus fuel)
      (fun c => Done A (if c = 0 then .idle else .stopped)) (Left P) := by
  induction fuel with
  | zero =>
    intro log h
    refine ⟨⟨p, h.run, fun _ hs => ?_⟩, h.ops ▸ hP, fun c hc => Exit.noConfusion hc⟩
    rw [hs] at hp
    exact absurd hp (by decide)
  | succ fuel ih =>
    refine Triple.bind (transaction_quiet rfl (fun c rx => status_next c rx hp) hP) fun rx => ?_
    simp only [ne_eq, not_true_eq_false, if_false]
    refine Triple.ite (fun hbusy => ?_) fun hready => Triple.pure fun log h => ?_
    · rw [if_pos hbusy]
      exact ih
    · rw [if_neg hready] at h
      simp only [error_eq_zero]
      exact h

theorem checkCall_pollWip_done (hp : p = .idle ∨ p = .busy) (hP : A <+: P) :
    Triple (Done A p) (checkCall (pollWip bus fuel)) (fun _ => Done A .idle) (Left P) := by
  refine Triple.bind (pollWip_done hp hP) fun c => Triple.ite (fun hc => ?_) fun hc => ?_
  · rw [if_pos hc]
    exact Triple.pure fun _ h => h
  · rw [if_neg hc]
    intro log h
    refine ⟨⟨_, h.run, fun h => Exit.noConfusion h⟩, h.ops ▸ hP, fun c' hc' => ?_⟩
    exact Exit.code.inj hc' ▸ hc

theorem setWen_done (hP : A <+: P) :
    Triple (Done A .idle) (setWen bus) (fun _ => Done A .armed) (Left P) := by
  exact Triple.bind (transaction_quiet rfl wen_next hP) fun _ => Triple.pure fun _ h => h

/-- An erase, a program, or a register write. -/
theorem operation_done {q : CInt → Phase}
    (hnext : ∀ c rx, Phase.next ⟨segs, c, rx⟩ .armed = some (q c))
    (hq : q 0 = .idle ∨ q 0 = .busy) (hP : A ++ (opOf segs).toList <+: P) :
    Triple (Done A .idle) (operation bus fuel segs)
      (fun _ => Done (A ++ (opOf segs).toList) .idle) (Left P) := by
  refine Triple.bind (setWen_done ((List.prefix_append _ _).trans hP)) fun _ => ?_
  refine Triple.bind (transaction_done hnext hP) fun _ => ?_
  exact checkCall_pollWip_done hq hP

/-- A loop whose `j`-th turn follows the part `f j` of the plan. -/
theorem forStep_done {f : ℕ → List Op} {n step stop : ℕ} {body : ℕ → M Unit} (hstep : 0 < step)
    (hstop : stop = n * step)
    (hbody : ∀ j < n, ∀ A, A ++ f j <+: P →
      Triple (Done A .idle) (body (j * step)) (fun _ => Done (A ++ f j) .idle) (Left P))
    (hP : A ++ (List.range n).flatMap f <+: P) : Triple (Done A .idle)
      (Cmd.forStep stop step body stop 0)
      (fun _ => Done (A ++ (List.range n).flatMap f) .idle) (Left P) := by
  have hturn : ∀ i < stop, Triple
      (fun log => ∃ j, i = j * step ∧ Done (A ++ (List.range j).flatMap f) .idle log) (body i)
      (fun _ log => ∃ j, min stop (i + step) = j * step ∧
        Done (A ++ (List.range j).flatMap f) .idle log) (Left P) := by
    intro i hi log h
    obtain ⟨j, rfl, h⟩ := h
    have hj : j < n := Nat.lt_of_mul_lt_mul_right (hstop ▸ hi)
    have hnext : (j + 1) * step ≤ stop := hstop ▸ Nat.mul_le_mul_right step hj
    have hpart : A ++ (List.range j).flatMap f ++ f j = A ++ (List.range (j + 1)).flatMap f := by
      rw [List.range_succ, List.flatMap_append, List.flatMap_singleton, List.append_assoc]
    have hprefix : A ++ (List.range j).flatMap f ++ f j <+: P := by
      rw [hpart]
      exact ((List.prefix_append_right_inj A).2 (flatMap_parts f hj)).trans hP
    refine (hbody j hj _ hprefix log h).mono (fun _ log' hdone => ?_) fun _ _ hleft => hleft
    rw [hpart] at hdone
    refine ⟨j + 1, ?_, hdone⟩
    rw [Nat.succ_mul] at hnext ⊢
    exact Nat.min_eq_right hnext
  intro log h
  have hloop := Triple.forStep hstep hturn stop 0 le_rfl (Nat.zero_le _) log
    ⟨0, (Nat.zero_mul _).symm, by rwa [List.range_zero, List.flatMap_nil, List.append_nil]⟩
  refine hloop.mono (fun _ log' hdone => ?_) fun _ _ hleft => hleft
  obtain ⟨j, hj, hdone⟩ := hdone
  obtain rfl : n = j := Nat.eq_of_mul_eq_mul_right hstep (hstop.symm.trans hj)
  exact hdone

end Run

section Sector

variable {bus : Bus} {fuel : ℕ} {mem : Mem} {A P : List Op}

/-- An erase or a program. -/
theorem op_done {segs : List Segment} {o : Op} (ho : opOf segs = some o) (hP : A ++ [o] <+: P) :
    Triple (Done A .idle) (operation bus fuel segs) (fun _ => Done (A ++ [o]) .idle) (Left P) := by
  have hop := @operation_done bus fuel segs A P (fun c => if c = 0 then .busy else .stopped)
    (fun c rx => op_next c rx (by rw [ho]; rfl)) (.inr rfl) (by rw [ho]; exact hP)
  rw [ho] at hop
  exact hop

/-- Eight 4 KiB erases. -/
theorem erase4kib_done {a : CInt} (ha : a.toNat + 8 * 4096 ≤ 2 ^ 32)
    (hP : A ++ (List.range 8).map (fun i => ⟨0x21, a.toNat + 4096 * i, []⟩) <+: P) :
    Triple (Done A .idle) (erase4kib bus fuel a)
      (fun _ => Done (A ++ (List.range 8).map fun i => ⟨0x21, a.toNat + 4096 * i, []⟩) .idle)
      (Left P) := by
  rw [List.map_eq_flatMap] at hP ⊢
  refine forStep_done (n := 8) Nat.one_pos rfl (fun j hj A hA => ?_) hP
  have haddr : (a + BitVec.ofNat 32 ((j * 1) <<< 12)).toNat = a.toNat + 4096 * j := by
    rw [BitVec.toNat_add, BitVec.toNat_ofNat, Nat.shiftLeft_eq]
    omega
  rw [← haddr] at hA ⊢
  exact op_done rfl hA

/-! Sector `k`, at `k * 2 ^ 18`. -/

variable {sectorAddr : U64} {k : ℕ}

theorem eraseOverlay_done (haddr : sectorAddr.toNat = k * 2 ^ 18) (hk : k < 256)
    (hP : A ++ overlay k <+: P) :
    Triple (Done A .idle) (eraseOverlay bus fuel sectorAddr (256 * 1024))
      (fun _ => Done (A ++ overlay k) .idle) (Left P) := by
  have halign : ((sectorAddr >>> 18) % 64).toNat = k % 64 := by
    rw [BitVec.toNat_umod, BitVec.toNat_ushiftRight, Nat.shiftRight_eq_div_pow, haddr]
    show k * 2 ^ 18 / 2 ^ 18 % 64 = k % 64
    omega
  have hlow : (sectorAddr.setWidth 32).toNat = k * 2 ^ 18 := by
    rw [BitVec.toNat_setWidth, haddr]
    omega
  have hhigh : ((sectorAddr + 256 * 1024 - 8 * 4096).setWidth 32).toNat =
      k * 2 ^ 18 + (2 ^ 18 - 8 * 4096) := by
    have hsize : (256 * 1024 : U64).toNat = 2 ^ 18 := rfl
    have hmargin : (8 * 4096 : U64).toNat = 8 * 4096 := rfl
    rw [BitVec.toNat_setWidth, BitVec.toNat_sub, BitVec.toNat_add, hsize, hmargin, haddr]
    omega
  unfold overlay at hP ⊢
  refine Triple.ite (fun h63 => ?_) fun hnot63 => Triple.ite (fun h0 => ?_) fun hnot0 => ?_
  · rw [h63] at halign
    have hk63 : k % 64 = 63 := halign.symm
    rw [if_pos hk63, ← hhigh] at hP ⊢
    exact erase4kib_done (by rw [hhigh]; omega) hP
  · rw [h0] at halign
    have hk0 : k % 64 = 0 := halign.symm
    rw [if_neg (by omega), if_pos hk0, ← hlow] at hP ⊢
    exact erase4kib_done (by rw [hlow]; omega) hP
  · have hk63 : k % 64 ≠ 63 := fun h => hnot63 (BitVec.eq_of_toNat_eq (halign.trans h))
    have hk0 : k % 64 ≠ 0 := fun h => hnot0 (BitVec.eq_of_toNat_eq (halign.trans h))
    rw [if_neg hk63, if_neg hk0, List.append_nil]
    exact Triple.pure fun _ h => h

theorem singleFlashSector_done {buf : U64} (haddr : sectorAddr.toNat = k * 2 ^ 18) (hk : k < 256)
    (hP : A ++ sectorPlan mem buf k <+: P) :
    Triple (Done A .idle) (singleFlashSector bus fuel mem buf sectorAddr (256 * 1024))
      (fun _ => Done (A ++ sectorPlan mem buf k) .idle) (Left P) := by
  have hlow : (sectorAddr.setWidth 32).toNat = k * 2 ^ 18 := by
    rw [BitVec.toNat_setWidth, haddr]
    omega
  have hparts : A ++ sectorPlan mem buf k =
      A ++ overlay k ++ [⟨0xDC, k * 2 ^ 18, []⟩] ++ pages mem buf k := by
    simp [sectorPlan]
  rw [hparts] at hP ⊢
  have herase := (List.prefix_append _ _).trans hP
  refine Triple.bind (eraseOverlay_done haddr hk ((List.prefix_append _ _).trans herase))
    fun _ => ?_
  refine Triple.bind (op_done (o := ⟨0xDC, k * 2 ^ 18, []⟩) (by rw [← hlow]; rfl) herase)
    fun _ => ?_
  unfold pages at hP ⊢
  rw [List.map_eq_flatMap] at hP ⊢
  refine forStep_done (n := 1024) (by decide) rfl (fun j hj B hB => ?_) hP
  have hpage : ((sectorAddr + BitVec.ofNat 64 (j * 256)).setWidth 32).toNat =
      k * 2 ^ 18 + 256 * j := by
    rw [BitVec.toNat_setWidth, BitVec.toNat_add, BitVec.toNat_ofNat, haddr]
    omega
  refine op_done ?_ hB
  rw [← hpage, Nat.mul_comm 256]
  rfl

end Sector

section Flash

variable (bus : Bus) (fuel : ℕ) (mem : Mem) (spiFreq buf : U64) {sector numSectors : U64}

/-- The address of a sector. -/
theorem sectorAddr_toNat {s : ℕ} (h : sector.toNat + s < 256) :
    ((sector + BitVec.ofNat 64 s) <<< 18).toNat = (sector.toNat + s) * 2 ^ 18 := by
  rw [BitVec.toNat_shiftLeft, BitVec.toNat_add, BitVec.toNat_ofNat, Nat.shiftLeft_eq]
  omega

/-- A run follows the plan, whatever the transactions return. -/
theorem singleFlash_done (h : sector.toNat + numSectors.toNat ≤ 256) :
    Ends (singleFlash bus fuel mem spiFreq buf sector numSectors [])
      (fun _ => Done (plan mem buf sector.toNat numSectors.toNat) .idle)
      (Left (plan mem buf sector.toNat numSectors.toNat)) := by
  have hnil : [] <+: plan mem buf sector.toNat numSectors.toNat := List.nil_prefix
  have hrun : Triple (Done [] .idle) (singleFlash bus fuel mem spiFreq buf sector numSectors)
      (fun _ => Done (plan mem buf sector.toNat numSectors.toNat) .idle)
      (Left (plan mem buf sector.toNat numSectors.toNat)) := by
    refine Triple.ite (fun _ => ?_) fun _ => ?_
    · refine Triple.bind (setWen_done hnil) fun _ => ?_
      refine Triple.bind (transaction_quiet rfl
        (fun c rx => other_next c rx rfl (by decide) (by decide)) hnil) fun _ => ?_
      refine Triple.bind (operation_done (q := fun c => if c = 0 then .idle else .stopped)
        (fun c rx => other_next c rx rfl (by decide) (by decide)) (.inl rfl) hnil) fun _ => ?_
      refine forStep_done (A := []) (f := fun s => sectorPlan mem
        (buf + BitVec.ofNat 64 (s <<< 18)) (sector.toNat + s)) Nat.one_pos
        (Nat.mul_one _).symm (fun s hs A hA => ?_) (List.prefix_refl _)
      rw [Nat.mul_one]
      exact singleFlashSector_done (sectorAddr_toNat (by omega)) (by omega) hA
    · intro log hlog
      refine ⟨⟨_, hlog.run, fun h => Exit.noConfusion h⟩, hlog.ops ▸ hnil, fun c hc => ?_⟩
      exact Exit.code.inj hc ▸ by decide
  exact hrun [] ⟨rfl, rfl⟩

end Flash

/-! ## What the plan says -/

section Plan

variable {mem : Mem} {buf : U64} {sector num k : ℕ} {A B : List Op} {o : Op}

theorem mem_overlay (h : o ∈ overlay k) :
    o.opcode = 0x21 ∧ k * 2 ^ 18 ≤ o.address ∧ o.address + 4096 ≤ (k + 1) * 2 ^ 18 := by
  unfold overlay at h
  split_ifs at h
  · obtain ⟨i, hi, rfl⟩ := List.mem_map.1 h
    have hi' := List.mem_range.1 hi
    exact ⟨rfl, by show _ ≤ _ + _ + _; omega, by show _ + _ + _ + _ ≤ _; omega⟩
  · obtain ⟨i, hi, rfl⟩ := List.mem_map.1 h
    have hi' := List.mem_range.1 hi
    exact ⟨rfl, Nat.le_add_right _ _, by show _ + _ + _ ≤ _; omega⟩
  · exact absurd h List.not_mem_nil

theorem mem_pages (h : o ∈ pages mem buf k) : o.opcode = 0x12 ∧ o.address / 2 ^ 18 = k := by
  obtain ⟨i, hi, rfl⟩ := List.mem_map.1 h
  have hi' := List.mem_range.1 hi
  exact ⟨rfl, by show (_ + _) / _ = _; omega⟩

/-- An erase or program of a sector, and the ones before it. -/
theorem sectorPlan_cases (h : B ++ [o] <+: sectorPlan mem buf k) :
    o ∈ overlay k ∧ (∀ b ∈ B, b ∈ overlay k) ∨ o.opcode = 0xDC ∨
      ⟨0xDC, k * 2 ^ 18, []⟩ ∈ B ∧ o ∈ pages mem buf k := by
  rcases prefix_append_cases h with hin | ⟨C, rfl, hC⟩
  · have hsub := hin.subset
    exact .inl ⟨hsub (List.mem_append_right B (List.mem_singleton_self o)),
      fun b hb => hsub (List.mem_append_left [o] hb)⟩
  · cases C with
    | nil =>
      obtain ⟨rfl, -⟩ := List.cons_prefix_cons.1 hC
      exact .inr (.inl rfl)
    | cons c C =>
      obtain ⟨rfl, hrest⟩ := List.cons_prefix_cons.1 hC
      have ho := hrest.subset (List.mem_append_right C (List.mem_singleton_self o))
      exact .inr (.inr ⟨List.mem_append_right _ List.mem_cons_self, ho⟩)

/-- The sector erases. -/
def erases (A : List Op) : ℕ := A.countP fun o => o.opcode = 0xDC

theorem erases_overlay (h : ∀ b ∈ B, b ∈ overlay k) : erases B = 0 := by
  refine List.countP_eq_zero.2 fun b hb => ?_
  rw [(mem_overlay (h b hb)).1]
  decide

theorem erases_sectorPlan : erases (sectorPlan mem buf k) = 1 := by
  have hpages : erases (pages mem buf k) = 0 := by
    refine List.countP_eq_zero.2 fun b hb => ?_
    rw [(mem_pages hb).1]
    decide
  have hoverlay := erases_overlay (B := overlay k) fun _ hb => hb
  unfold erases at hpages hoverlay ⊢
  rw [sectorPlan, List.countP_append, hoverlay, List.countP_cons_of_pos rfl, hpages]

theorem erases_plan : erases (plan mem buf sector num) = num := by
  induction num with
  | zero => rfl
  | succ num ih =>
    unfold plan at ih ⊢
    rw [List.range_succ, List.flatMap_append, List.flatMap_singleton, erases, List.countP_append]
    exact congrArg₂ (· + ·) ih erases_sectorPlan

/-- The 4 KiB erases are in the sector that is erased next. -/
theorem plan_inside (h : A ++ [o] <+: plan mem buf sector num) (ho : o.opcode = 0x21) :
    (sector + erases A) * 2 ^ 18 ≤ o.address ∧
      o.address + 4096 ≤ (sector + erases A + 1) * 2 ^ 18 := by
  obtain ⟨s, -, B, rfl, hB⟩ := prefix_flatMap h
  rcases sectorPlan_cases hB with ⟨hin, hbefore⟩ | herase | ⟨-, hpage⟩
  · have hcount : erases ((List.range s).flatMap (fun s => sectorPlan mem
        (buf + BitVec.ofNat 64 (s <<< 18)) (sector + s)) ++ B) = s := by
      rw [erases, List.countP_append]
      exact congrArg₂ (· + ·) erases_plan (erases_overlay hbefore)
    rw [hcount]
    exact (mem_overlay hin).2
  · rw [ho] at herase
    exact absurd herase (by decide)
  · have hop := ho.symm.trans (mem_pages hpage).1
    exact absurd hop (by decide)

/-- A sector is erased before its pages are programmed. -/
theorem plan_erased (h : A ++ [o] <+: plan mem buf sector num) (ho : o.opcode = 0x12) :
    ∃ d ∈ A, d.opcode = 0xDC ∧ d.address = o.address / 2 ^ 18 * 2 ^ 18 := by
  obtain ⟨s, -, B, rfl, hB⟩ := prefix_flatMap h
  rcases sectorPlan_cases hB with ⟨hin, -⟩ | herase | ⟨herase, hpage⟩
  · have hop := ho.symm.trans (mem_overlay hin).1
    exact absurd hop (by decide)
  · rw [ho] at herase
    exact absurd herase (by decide)
  · exact ⟨_, List.mem_append_right _ herase, rfl, by rw [(mem_pages hpage).2]⟩

/-- The programs of an operation list. -/
def programs (A : List Op) : List Op := A.filter fun o => o.opcode = 0x12

theorem programs_sectorPlan : programs (sectorPlan mem buf k) = pages mem buf k := by
  have hoverlay : programs (overlay k) = [] := by
    refine List.filter_eq_nil_iff.2 fun b hb => ?_
    rw [(mem_overlay hb).1]
    decide
  have hpages : programs (pages mem buf k) = pages mem buf k := by
    refine List.filter_eq_self.2 fun b hb => ?_
    rw [(mem_pages hb).1]
    decide
  unfold programs at hoverlay hpages ⊢
  rw [sectorPlan, List.filter_append, hoverlay, List.filter_cons_of_neg Bool.false_ne_true, hpages,
    List.nil_append]

/-- The pages of all sectors, one after the other. -/
theorem programs_plan : programs (plan mem buf sector num) =
    (List.range (1024 * num)).map fun i =>
      ⟨0x12, sector * 2 ^ 18 + 256 * i, bytesAt mem (buf + BitVec.ofNat 64 (256 * i)) 256⟩ := by
  induction num with
  | zero => rfl
  | succ num ih =>
    have hlast (i : ℕ) : Op.mk 0x12 ((sector + num) * 2 ^ 18 + 256 * i)
        (bytesAt mem (buf + BitVec.ofNat 64 (num <<< 18) + BitVec.ofNat 64 (256 * i)) 256) =
        ⟨0x12, sector * 2 ^ 18 + 256 * (1024 * num + i),
          bytesAt mem (buf + BitVec.ofNat 64 (256 * (1024 * num + i))) 256⟩ := by
      have hoff : num <<< 18 + 256 * i = 256 * (1024 * num + i) := by
        rw [Nat.shiftLeft_eq]
        omega
      have haddr : (sector + num) * 2 ^ 18 + 256 * i =
          sector * 2 ^ 18 + 256 * (1024 * num + i) := by omega
      have hbuf : buf + BitVec.ofNat 64 (num <<< 18) + BitVec.ofNat 64 (256 * i) =
          buf + BitVec.ofNat 64 (256 * (1024 * num + i)) := by
        rw [BitVec.add_assoc, ← hoff, BitVec.ofNat_add]
      rw [haddr, hbuf]
    have hpages := @programs_sectorPlan mem (buf + BitVec.ofNat 64 (num <<< 18)) (sector + num)
    have hsector := hpages.trans (List.map_congr_left fun i _ => hlast i)
    unfold plan programs at ih hsector ⊢
    rw [List.range_succ, List.flatMap_append, List.flatMap_singleton, List.filter_append, ih,
      hsector, Nat.mul_succ, List.range_add, List.map_append, List.map_map]
    rfl

end Plan

/-! ## Main result -/

/-- The transactions of a run, and what it has returned, if it has. -/
def logOf : EStateM.Result Exit (List Entry) Unit → List Entry
  | .ok _ log => log
  | .error _ log => log

def returned : EStateM.Result Exit (List Entry) Unit → Option CInt
  | .ok _ _ => some 0
  | .error (.code c) _ => some c
  | .error .running _ => none

/-- The discipline of a flash run, which ends with the first `Bad` transaction. -/
structure Disciplined (Bad : Entry → Prop) (mem : Mem) (buf : U64) (sector num : ℕ)
    (log : List Entry) (ret : Option CInt) : Prop where
  wen : ∀ pre e post, log = pre ++ e :: post → e.op.isSome → ∃ pre' w, pre = pre' ++ [w] ∧ w.IsWen
  ready : ∀ pre e₁ mid e₂ post, log = pre ++ e₁ :: (mid ++ e₂ :: post) → e₁.op.isSome →
    e₂.op.isSome → ∃ r ∈ mid, r.Clean
  bad : ∀ pre e post, log = pre ++ e :: post → Bad e →
    (∀ x ∈ post, x.op = none) ∧ ∃ c ≠ 0, ret = some c
  /-- The sector being flashed is the one that is erased next. -/
  inside : ∀ pre e post o, log = pre ++ e :: post → e.op = some o → o.opcode = 0x21 →
    (sector + erases (ops pre)) * 2 ^ 18 ≤ o.address ∧
      o.address + 4096 ≤ (sector + erases (ops pre) + 1) * 2 ^ 18
  erased : ∀ pre e post o, log = pre ++ e :: post → e.op = some o → o.opcode = 0x12 →
    ∃ d ∈ ops pre, d.opcode = 0xDC ∧ d.address = o.address / 2 ^ 18 * 2 ^ 18
  pages : ret = some 0 → programs (ops log) = (List.range (1024 * num)).map fun i =>
    ⟨0x12, sector * 2 ^ 18 + 256 * i, bytesAt mem (buf + BitVec.ofNat 64 (256 * i)) 256⟩

section Disciplined

variable {mem : Mem} {buf : U64} {sector num : ℕ} {log : List Entry} {ret : Option CInt}

theorem ops_around {pre post : List Entry} {e : Entry} {o : Op} (ho : e.op = some o) :
    ops pre ++ [o] <+: ops (pre ++ e :: post) := by
  refine ⟨ops post, ?_⟩
  rw [ops, ops, ops, List.filterMap_append, List.filterMap_cons_some ho, List.append_assoc]
  rfl

/-- What is left to be shown of a run that the monitor accepts, and that follows the plan. -/
theorem disciplined_of_run {p : Phase} (hrun : watch.run .idle log = some p)
    (hops : ops log <+: plan mem buf sector num)
    (hstopped : p = .stopped → ∃ c ≠ 0, ret = some c)
    (hzero : ret = some 0 → ops log = plan mem buf sector num) :
    Disciplined Entry.Stops mem buf sector num log ret where
  wen pre e post hlog hop := wen_before (hlog ▸ hrun) hop
  ready pre e₁ mid e₂ post hlog := clean_between (hlog ▸ hrun)
  bad pre e post hlog hs := by
    obtain ⟨rfl, rfl⟩ := stops_last (hlog ▸ hrun) hs
    exact ⟨fun x hx => absurd hx List.not_mem_nil, hstopped rfl⟩
  inside pre e post o hlog ho := plan_inside ((ops_around ho).trans (hlog ▸ hops))
  erased pre e post o hlog ho := plan_erased ((ops_around ho).trans (hlog ▸ hops))
  pages hret := by rw [hzero hret, programs_plan]

end Disciplined

/-- **Main result.** Every run is disciplined, where the status of a busy flash has no errors. -/
theorem singleFlash_disciplined (bus : Bus) (fuel : ℕ) (mem : Mem) (spiFreq buf : U64)
    {sector numSectors : U64} (h : sector.toNat + numSectors.toNat ≤ 256) :
    Disciplined Entry.Stops mem buf sector.toNat numSectors.toNat
      (logOf (singleFlash bus fuel mem spiFreq buf sector numSectors []))
      (returned (singleFlash bus fuel mem spiFreq buf sector numSectors [])) := by
  have hends := singleFlash_done bus fuel mem spiFreq buf h
  cases hres : singleFlash bus fuel mem spiFreq buf sector numSectors [] with
  | ok a log =>
    rw [hres] at hends
    exact disciplined_of_run hends.run (hends.ops ▸ List.prefix_refl _)
      (fun hp => absurd hp (by decide)) fun _ => hends.ops
  | error e log =>
    rw [hres] at hends
    obtain ⟨p, hrun, hrunning⟩ := hends.run
    cases e with
    | code c =>
      have hc := hends.code c rfl
      exact disciplined_of_run hrun hends.ops (fun _ => ⟨c, hc, rfl⟩)
        fun hret => absurd (Option.some.inj hret) hc
    | running =>
      exact disciplined_of_run hrun hends.ops (fun hp => absurd hp (hrunning rfl))
        fun hret => absurd hret.symm (Option.some_ne_none 0)

/-! ## An error bit of a busy flash -/

/-- The first status read finds a busy flash with an error bit. The first erase is done, and the
status read after it fails. -/
def busyError : Bus := fun n => ⟨if n = 8 then 1 else 0, fun _ => if n = 4 then 0x21 else 0⟩

def busyErrorRun : EStateM.Result Exit (List Entry) Unit :=
  singleFlash busyError 2 (fun _ => 0) 50000000 0x10000000 0 1 []

theorem busyError_disciplined : Disciplined Entry.Stops (fun _ => 0) 0x10000000 0 1
    (logOf busyErrorRun) (returned busyErrorRun) :=
  @singleFlash_disciplined busyError 2 (fun _ => 0) 50000000 0x10000000 0 1 (by decide)

/-- A failing transaction, or an error bit in any status. -/
def AnyError (e : Entry) : Prop := e.result ≠ 0 ∨ e.IsStatus ∧ e.rx 0 &&& 0x60 ≠ 0

instance (e : Entry) : Decidable (AnyError e) := inferInstanceAs (Decidable (_ ∨ _))

/-- After the error bit, a 4 KiB sector is erased. -/
theorem busyError_not_disciplined : ¬Disciplined AnyError (fun _ => 0) 0x10000000 0 1
    (logOf busyErrorRun) (returned busyErrorRun) := by
  intro h
  have hlen : 4 < (logOf busyErrorRun).length := by decide +kernel
  have hsplit : logOf busyErrorRun = (logOf busyErrorRun).take 4 ++
      (logOf busyErrorRun)[4] :: (logOf busyErrorRun).drop 5 := by
    rw [← List.drop_eq_getElem_cons hlen, List.take_append_drop]
  have herror : ∀ _ : 4 < (logOf busyErrorRun).length, AnyError (logOf busyErrorRun)[4] := by
    decide +kernel
  have hrest := (h.bad _ _ _ hsplit (herror hlen)).1
  exact absurd hrest (by decide +kernel)

end Cheshire.SpiFlash
