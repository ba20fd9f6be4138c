import Cheshire.Lib.Nor
import Cheshire.SpiFlashRun

/-!
# What a flash run stores: `spi_s25fs512s.c`

The flash is its configuration register CR3V, bit 1 of which chooses erases of 256 KiB instead of
64 KiB, and its cells. A register write stores the byte that the host transmits after the address.
The driver's write of CR3V has a segment that receives instead, so that it transmits none.

**Theorem (`singleFlash_stores_iff`).** A run that returns 0 has set CR3V before the first erase,
stores the buffer in the sectors, and changes nothing else if and only if it has no sectors, or CR3V
has its value from the beginning.
-/

namespace Cheshire.SpiFlash

open Lib Cmd

/-! ## The flash -/

structure Flash where
  cr3v : Byte
  cells : Nor.Cells

namespace Flash

/-- The sector size for erases. -/
def eraseSize (flash : Flash) : ℕ := if flash.cr3v.getLsbD 1 then 2 ^ 18 else 2 ^ 16

variable (small : ℕ → Bool) (flash : Flash)

/-- An erase or a program. The blocks of 4 KiB that can be erased alone are `small`. -/
def op (o : Op) : Flash :=
  if o.opcode = 0x21 then
    if small (o.address / 4096) then { flash with cells := Nor.erase 4096 o.address flash.cells }
    else flash
  else if o.opcode = 0xDC then
    { flash with cells := Nor.erase flash.eraseSize o.address flash.cells }
  else { flash with cells := Nor.program 256 o.address o.data flash.cells }

/-- A transaction: an erase, a program, or a register write to CR3V. -/
def next (segs : List Segment) : Flash :=
  match opOf segs with
  | some o => flash.op small o
  | none =>
    if opcodeOf segs = some 0x71 ∧ addressOf segs = 0x00800004 then
      { flash with cr3v := (dataOf segs).headD flash.cr3v }
    else flash

def ops (A : List Op) : Flash := A.foldl (fun flash o => flash.op small o) flash

def run (log : List Entry) : Flash := log.foldl (fun flash e => flash.next small e.segs) flash

end Flash

/-- An erase. -/
def Entry.IsErase (e : Entry) : Prop := opcodeOf e.segs = some 0x21 ∨ opcodeOf e.segs = some 0xDC

instance (e : Entry) : Decidable e.IsErase := inferInstanceAs (Decidable (_ ∨ _))

/-- The sectors hold the buffer, and the flash was configured before the first erase. -/
structure Stores (small : ℕ → Bool) (flash : Flash) (mem : Mem) (buf : U64) (sector num : ℕ)
    (log : List Entry) : Prop where
  cr3v : ∀ pre e post, log = pre ++ e :: post → (∀ x ∈ pre, ¬x.IsErase) → e.IsErase →
    (flash.run small pre).cr3v = 0x02
  data : ∀ i < num * 2 ^ 18,
    (flash.run small log).cells (sector * 2 ^ 18 + i) = mem (buf + BitVec.ofNat 64 i)
  frame : ∀ c, c < sector * 2 ^ 18 ∨ (sector + num) * 2 ^ 18 ≤ c →
    (flash.run small log).cells c = flash.cells c

/-! ## Erases and programs -/

section Ops

variable {small : ℕ → Bool} {flash : Flash} {mem : Mem} {buf : U64} {A B : List Op} {k c : ℕ}

theorem op_cr3v (o : Op) : (flash.op small o).cr3v = flash.cr3v := by
  unfold Flash.op
  split_ifs <;> rfl

theorem ops_cr3v : (flash.ops small A).cr3v = flash.cr3v := by
  induction A generalizing flash with
  | nil => rfl
  | cons o A ih => exact ih.trans (op_cr3v o)

theorem ops_cons (o : Op) : flash.ops small (o :: A) = (flash.op small o).ops small A := rfl

theorem ops_append : flash.ops small (A ++ B) = (flash.ops small A).ops small B :=
  List.foldl_append

theorem eraseSize_dvd : flash.eraseSize ∣ 2 ^ 18 := by
  unfold Flash.eraseSize
  split_ifs <;> decide

/-- An erase or a program changes one sector at most. -/
theorem op_frame {o : Op} (h : c / 2 ^ 18 ≠ o.address / 2 ^ 18) :
    (flash.op small o).cells c = flash.cells c := by
  unfold Flash.op
  split_ifs
  · exact Nor.erase_frame (by decide) h
  · rfl
  · exact Nor.erase_frame eraseSize_dvd h
  · exact Nor.program_frame (by decide) h

theorem ops_frame (h : ∀ o ∈ A, c / 2 ^ 18 ≠ o.address / 2 ^ 18) :
    (flash.ops small A).cells c = flash.cells c :=
  List.foldlRecOn (motive := fun flash' : Flash => flash'.cells c = flash.cells c) A _ rfl
    fun _ hflash o ho => (op_frame (h o ho)).trans hflash

theorem ops_none (h : ∀ o ∈ A, o.opcode = 0x21) : flash.ops (fun _ => false) A = flash := by
  induction A with
  | nil => rfl
  | cons o A ih =>
    have hop : flash.op (fun _ => false) o = flash := by
      rw [Flash.op, if_pos (h o List.mem_cons_self), if_neg Bool.false_ne_true]
    rw [ops_cons, hop, ih fun o' ho' => h o' (List.mem_cons_of_mem o ho')]

/-! ## A sector -/

theorem overlay_address {o : Op} (h : o ∈ overlay k) : o.address / 2 ^ 18 = k := by
  have hmem := mem_overlay h
  omega

theorem bytesAt_getD {a : U64} {n i : ℕ} (h : i < n) :
    ((bytesAt mem a n)[i]?).getD 0xFF = mem (a + BitVec.ofNat 64 i) := by
  simp [bytesAt, List.getElem?_range h]

/-- The programs of a sector clear the bits that the buffer does not have. -/
theorem pages_cells : (flash.ops small (pages mem buf k)).cells c =
    if c / 2 ^ 18 = k then flash.cells c &&& mem (buf + BitVec.ofNat 64 (c % 2 ^ 18))
    else flash.cells c := by
  have hcells : (flash.ops small (pages mem buf k)).cells =
      (List.range 1024).foldl (fun cells i => Nor.program 256 (256 * (1024 * k + i))
        (bytesAt mem (buf + BitVec.ofNat 64 (256 * i)) 256) cells) flash.cells := by
    have haddr (i : ℕ) : k * 2 ^ 18 + 256 * i = 256 * (1024 * k + i) := by omega
    unfold Flash.ops pages
    simp only [haddr]
    rw [List.foldl_map]
    exact (List.foldl_hom Flash.cells fun _ _ => rfl).symm
  rw [hcells, Nor.program_pages_apply (by decide)]
  by_cases hk : c / 2 ^ 18 = k
  · have hoff : 256 * (c / 256 - 1024 * k) + c % 256 = c % 2 ^ 18 := by omega
    rw [if_pos (by omega), if_pos hk, bytesAt_getD (Nat.mod_lt c (by decide)), BitVec.add_assoc,
      ← BitVec.ofNat_add, hoff]
  · rw [if_neg (by omega), if_neg hk]

/-- What the erases of a sector leave is what its programs start from. -/
theorem sectorPlan_ops : flash.ops small (sectorPlan mem buf k) =
    (((flash.ops small (overlay k)).op small ⟨0xDC, k * 2 ^ 18, []⟩).ops small
      (pages mem buf k)) := by
  rw [sectorPlan, ops_append, ops_cons]

/-- Erases of 256 KiB: the sector holds the buffer, and nothing else has changed. -/
theorem sectorPlan_cells (hsize : flash.cr3v.getLsbD 1) :
    (flash.ops small (sectorPlan mem buf k)).cells c =
      if c / 2 ^ 18 = k then mem (buf + BitVec.ofNat 64 (c % 2 ^ 18)) else flash.cells c := by
  have hfull : (flash.ops small (overlay k)).eraseSize = 2 ^ 18 := by
    rw [Flash.eraseSize, ops_cr3v, if_pos hsize]
  rw [sectorPlan_ops, pages_cells]
  by_cases hk : c / 2 ^ 18 = k
  · have herased : ((flash.ops small (overlay k)).op small ⟨0xDC, k * 2 ^ 18, []⟩).cells c =
        0xFF := by
      refine Nor.erase_inside ?_
      rw [hfull, hk, Nat.mul_div_cancel k (by decide)]
    rw [if_pos hk, if_pos hk, herased]
    exact BitVec.allOnes_and
  · rw [if_neg hk, if_neg hk, op_frame (by show _ ≠ _ * _ / _; omega),
      ops_frame fun o ho => by rw [overlay_address ho]; exact hk]

/-- Erases of 64 KiB: the rest of the sector gets no bit back that it has lost. -/
theorem sectorPlan_cells_short (hsize : flash.cr3v.getLsbD 1 = false) :
    (flash.ops (fun _ => false) (sectorPlan mem buf k)).cells c =
      if c / 2 ^ 18 = k then
        if c % 2 ^ 18 < 2 ^ 16 then mem (buf + BitVec.ofNat 64 (c % 2 ^ 18))
        else flash.cells c &&& mem (buf + BitVec.ofNat 64 (c % 2 ^ 18))
      else flash.cells c := by
  have hoverlay : flash.ops (fun _ => false) (overlay k) = flash :=
    ops_none fun o ho => (mem_overlay ho).1
  have hshort : flash.eraseSize = 2 ^ 16 := by
    rw [Flash.eraseSize, hsize, if_neg Bool.false_ne_true]
  rw [sectorPlan_ops, pages_cells, hoverlay]
  by_cases hk : c / 2 ^ 18 = k
  · rw [if_pos hk, if_pos hk]
    by_cases hlow : c % 2 ^ 18 < 2 ^ 16
    · have herased : (flash.op (fun _ => false) ⟨0xDC, k * 2 ^ 18, []⟩).cells c = 0xFF := by
        refine Nor.erase_inside ?_
        rw [hshort]
        show _ / _ = k * 2 ^ 18 / _
        omega
      rw [if_pos hlow, herased]
      exact BitVec.allOnes_and
    · have hkept : (flash.op (fun _ => false) ⟨0xDC, k * 2 ^ 18, []⟩).cells c =
          flash.cells c := by
        refine Nor.erase_frame dvd_rfl ?_
        rw [hshort]
        show _ / _ ≠ k * 2 ^ 18 / _
        omega
      rw [if_neg hlow, hkept]
  · rw [if_neg hk, if_neg hk, op_frame (by show _ ≠ _ * _ / _; omega)]

/-! ## All sectors -/

theorem plan_succ (sector num : ℕ) : plan mem buf sector (num + 1) = plan mem buf sector num ++
    sectorPlan mem (buf + BitVec.ofNat 64 (num <<< 18)) (sector + num) := by
  rw [plan, plan, List.range_succ, List.flatMap_append, List.flatMap_singleton]

/-- If a sector becomes `put` of its cells and the buffer, so do all sectors. -/
theorem plan_cells (put : ℕ → Byte → Byte → Byte)
    (hsector : ∀ f : Flash, f.cr3v = flash.cr3v → ∀ buf k c,
      (f.ops small (sectorPlan mem buf k)).cells c =
        if c / 2 ^ 18 = k then put c (f.cells c) (mem (buf + BitVec.ofNat 64 (c % 2 ^ 18)))
        else f.cells c) (sector num : ℕ) :
    (flash.ops small (plan mem buf sector num)).cells c =
      if sector ≤ c / 2 ^ 18 ∧ c / 2 ^ 18 < sector + num then
        put c (flash.cells c) (mem (buf + BitVec.ofNat 64 (c - sector * 2 ^ 18)))
      else flash.cells c := by
  induction num with
  | zero => rw [if_neg (by omega)]; rfl
  | succ num ih =>
    rw [plan_succ, ops_append, hsector _ ops_cr3v, ih]
    by_cases hlast : c / 2 ^ 18 = sector + num
    · have hoff : num <<< 18 + c % 2 ^ 18 = c - sector * 2 ^ 18 := by
        rw [Nat.shiftLeft_eq]
        omega
      rw [if_pos hlast, if_neg (by omega), if_pos (by omega), BitVec.add_assoc,
        ← BitVec.ofNat_add, hoff]
    · rw [if_neg hlast]
      exact if_congr (by omega) rfl rfl

end Ops

/-! ## What the driver transmits -/

/-- A register write transmits no data. -/
def Dataless (segs : List Segment) : Prop := opcodeOf segs = some 0x71 → dataOf segs = []

theorem dataless_of_ne {b : Byte} (h : b ≠ 0x71) (segs : List Segment) :
    Dataless (.opcode b :: segs) := fun hop => absurd (Option.some.inj hop) h

/-- What every transaction of the driver keeps, and its waiting, it keeps as a whole. -/
structure Keeps (bus : Bus) (fuel : ℕ) (I : List Entry → Prop) (E : Exit → List Entry → Prop) :
    Prop where
  transaction : ∀ segs, Dataless segs → Triple I (transaction bus segs) (fun _ => I) E
  wait : Triple I (checkCall (pollWip bus fuel)) (fun _ => I) E

namespace Keeps

variable {bus : Bus} {fuel : ℕ} {I : List Entry → Prop} {E : Exit → List Entry → Prop} {mem : Mem}
  {spiFreq buf sectorAddr sectorSize : U64}

theorem setWen (h : Keeps bus fuel I E) : Triple I (setWen bus) (fun _ => I) E :=
  Triple.bind (h.transaction _ (dataless_of_ne (by decide) _)) fun _ => Triple.pure fun _ h => h

theorem operation (h : Keeps bus fuel I E) {segs : List Segment} (hsegs : Dataless segs) :
    Triple I (operation bus fuel segs) (fun _ => I) E :=
  Triple.bind h.setWen fun _ => Triple.bind (h.transaction segs hsegs) fun _ => h.wait

/-- A loop. -/
theorem forStep {body : ℕ → M Unit} (hbody : ∀ i, Triple I (body i) (fun _ => I) E) {stop step : ℕ}
    (hstep : 0 < step) : Triple I (forStep stop step body stop 0) (fun _ => I) E :=
  Triple.forStep (I := fun _ => I) hstep (fun i _ => hbody i) stop 0 le_rfl (Nat.zero_le stop)

theorem eraseOverlay (h : Keeps bus fuel I E) :
    Triple I (eraseOverlay bus fuel sectorAddr sectorSize) (fun _ => I) E := by
  have herase (addr : CInt) : Triple I (erase4kib bus fuel addr) (fun _ => I) E :=
    forStep (fun i => h.operation (dataless_of_ne (by decide) _)) Nat.one_pos
  refine Triple.ite (fun _ => herase _) fun _ => ?_
  exact Triple.ite (fun _ => herase _) fun _ => Triple.pure fun _ h => h

theorem singleFlashSector (h : Keeps bus fuel I E) :
    Triple I (singleFlashSector bus fuel mem buf sectorAddr sectorSize) (fun _ => I) E := by
  refine Triple.bind h.eraseOverlay fun _ => ?_
  refine Triple.bind (h.operation (dataless_of_ne (by decide) _)) fun _ => ?_
  exact forStep (fun p => h.operation (dataless_of_ne (by decide) _)) (by decide)

/-- CR3V is written without data. -/
theorem singleFlash (h : Keeps bus fuel I E) (hfreq : spiFreq < 100 * 1000 * 1000) (mem : Mem)
    (buf sector numSectors : U64) :
    Triple I (singleFlash bus fuel mem spiFreq buf sector numSectors) (fun _ => I) E := by
  unfold SpiFlash.singleFlash
  rw [if_pos hfreq]
  refine Triple.bind h.setWen fun _ => ?_
  refine Triple.bind (h.transaction _ (dataless_of_ne (by decide) _)) fun _ => ?_
  refine Triple.bind (h.operation fun _ => rfl) fun _ => ?_
  exact forStep (fun s => h.singleFlashSector) Nat.one_pos

end Keeps

section Run

variable {small : ℕ → Bool} {flash : Flash} {mem : Mem} {buf : U64} {sector num : ℕ} {bus : Bus}
  {fuel : ℕ} {spiFreq first numSectors : U64} {log : List Entry}

theorem keeps_dataless :
    Keeps bus fuel (fun log => ∀ e ∈ log, Dataless e.segs) fun _ _ => True := by
  have htransaction (segs : List Segment) (hsegs : Dataless segs) :
      Triple (fun log => ∀ e ∈ log, Dataless e.segs) (transaction bus segs)
        (fun _ log => ∀ e ∈ log, Dataless e.segs) fun _ _ => True := by
    intro log hlog
    unfold transaction
    by_cases hres : (bus log.length).result = 0
    · rw [if_pos hres]
      intro e he
      rcases List.mem_append.1 he with he | he
      · exact hlog e he
      · rw [List.mem_singleton.1 he]
        exact hsegs
    · rw [if_neg hres]
      trivial
  have hpoll : Triple (fun log => ∀ e ∈ log, Dataless e.segs) (pollWip bus fuel)
      (fun _ log => ∀ e ∈ log, Dataless e.segs) fun _ _ => True := by
    induction fuel with
    | zero => exact fun _ _ => trivial
    | succ fuel ih =>
      refine Triple.bind (htransaction _ (dataless_of_ne (by decide) _)) fun rx => ?_
      exact Triple.ite (fun _ => ih) fun _ => Triple.pure fun _ h => h
  exact ⟨htransaction, Triple.bind hpoll fun c =>
    Triple.ite (fun _ => Triple.pure fun _ h => h) fun _ _ _ => trivial⟩

theorem singleFlash_dataless
    (hok : singleFlash bus fuel mem spiFreq buf first numSectors [] = .ok () log) :
    ∀ e ∈ log, Dataless e.segs := by
  have hfreq : spiFreq < 100 * 1000 * 1000 := by
    by_contra hfast
    rw [singleFlash, if_neg hfast] at hok
    cases hok
  have hends := (@keeps_dataless bus fuel).singleFlash hfreq mem buf first numSectors []
    fun e he => absurd he List.not_mem_nil
  rw [hok] at hends
  exact hends

/-- A run that returns 0 has done everything. -/
theorem singleFlash_ops (h : first.toNat + numSectors.toNat ≤ 256)
    (hok : singleFlash bus fuel mem spiFreq buf first numSectors [] = .ok () log) :
    ops log = plan mem buf first.toNat numSectors.toNat := by
  have hdone := singleFlash_done bus fuel mem spiFreq buf h
  rw [hok] at hdone
  exact hdone.ops

/-- What the flash does in a run that never transmits a register. -/
theorem run_ops (h : ∀ e ∈ log, Dataless e.segs) :
    flash.run small log = flash.ops small (ops log) := by
  induction log generalizing flash with
  | nil => rfl
  | cons e log ih =>
    have hrest := fun f => @ih f fun e' he' => h e' (List.mem_cons_of_mem e he')
    show (flash.next small e.segs).run small log = _
    rw [hrest, Flash.next]
    cases hop : opOf e.segs with
    | some o =>
      have hops : ops (e :: log) = o :: ops log := List.filterMap_cons_some hop
      rw [hops]
      rfl
    | none =>
      have hsame : (if opcodeOf e.segs = some 0x71 ∧ addressOf e.segs = 0x00800004 then
          { flash with cr3v := (dataOf e.segs).headD flash.cr3v } else flash) = flash := by
        split_ifs with hwrite
        · rw [h e List.mem_cons_self hwrite.1]
          rfl
        · rfl
      have hops : ops (e :: log) = ops log := List.filterMap_cons_none hop
      rw [hsame, hops]

/-! ## The first erase -/

theorem op_opcode {e : Entry} {o : Op} (h : e.op = some o) : opcodeOf e.segs = some o.opcode := by
  unfold Entry.op opOf at h
  cases hb : opcodeOf e.segs with
  | none =>
    rw [hb] at h
    cases h
  | some b =>
    rw [hb] at h
    simp only at h
    split_ifs at h
    cases h
    rfl

theorem isErase_op {e : Entry} (h : e.IsErase) : e.op.isSome := by
  unfold Entry.op opOf
  rcases h with h | h <;> rw [h] <;> rfl

theorem first_erase (h : ∃ e ∈ log, e.IsErase) :
    ∃ pre e post, log = pre ++ e :: post ∧ (∀ x ∈ pre, ¬x.IsErase) ∧ e.IsErase := by
  obtain ⟨e, he, herase⟩ := h
  have hsome : (log.find? fun e => e.IsErase).isSome :=
    List.find?_isSome.2 ⟨e, he, decide_eq_true herase⟩
  obtain ⟨e, hfind⟩ := Option.isSome_iff_exists.1 hsome
  obtain ⟨herase, pre, post, hlog, hpre⟩ := List.find?_eq_some_iff_append.1 hfind
  exact ⟨pre, e, post, hlog, fun x hx => by simpa using hpre x hx, of_decide_eq_true herase⟩

theorem plan_erases (h : ops log = plan mem buf sector num) :
    (∃ e ∈ log, e.IsErase) ↔ num ≠ 0 := by
  constructor
  · rintro ⟨e, he, herase⟩ rfl
    obtain ⟨o, ho⟩ := Option.isSome_iff_exists.1 (isErase_op herase)
    have hmem : o ∈ ops log := List.mem_filterMap.2 ⟨e, he, ho⟩
    rw [h] at hmem
    exact absurd hmem List.not_mem_nil
  · intro hnum
    have hpos : 0 < erases (ops log) := by
      rw [h, erases_plan]
      omega
    obtain ⟨o, ho, hcode⟩ := List.countP_pos_iff.1 hpos
    obtain ⟨e, he, hop⟩ := List.mem_filterMap.1 ho
    refine ⟨e, he, .inr ?_⟩
    rw [op_opcode hop, of_decide_eq_true hcode]

/-! ## What a run leaves -/

/-- CR3V never changes, so that it must have its value from the beginning. -/
theorem stores_iff (hops : ops log = plan mem buf sector num)
    (hdata : ∀ e ∈ log, Dataless e.segs) :
    Stores small flash mem buf sector num log ↔ num = 0 ∨ flash.cr3v = 0x02 := by
  have hcr3v {pre post : List Entry} (hlog : log = pre ++ post) :
      (flash.run small pre).cr3v = flash.cr3v := by
    rw [run_ops fun e he => hdata e (hlog ▸ List.mem_append_left post he), ops_cr3v]
  constructor
  · intro h
    by_contra hneither
    rw [not_or] at hneither
    obtain ⟨pre, e, post, hlog, hpre, herase⟩ := first_erase ((plan_erases hops).2 hneither.1)
    have hset := h.cr3v pre e post hlog hpre herase
    rw [hcr3v hlog] at hset
    exact hneither.2 hset
  · intro h
    have hcells (c : ℕ) : (flash.run small log).cells c =
        if sector ≤ c / 2 ^ 18 ∧ c / 2 ^ 18 < sector + num then
          mem (buf + BitVec.ofNat 64 (c - sector * 2 ^ 18)) else flash.cells c := by
      rw [run_ops hdata, hops]
      rcases h with rfl | hset
      · rw [if_neg (by omega)]
        rfl
      · refine plan_cells (fun _ _ new => new) (fun f hf buf k c => ?_) sector num
        exact sectorPlan_cells (by rw [hf, hset]; decide)
    refine ⟨fun pre e post hlog _ herase => ?_, fun i hi => ?_, fun c hc => ?_⟩
    · rw [hcr3v hlog]
      refine h.resolve_left ((plan_erases hops).1 ⟨e, ?_, herase⟩)
      rw [hlog]
      exact List.mem_append_right pre List.mem_cons_self
    · rw [hcells, if_pos (by omega), Nat.add_sub_cancel_left]
    · rw [hcells, if_neg (by omega)]

/-- With erases of 64 KiB, and none of 4 KiB, three quarters of every sector only lose bits. -/
theorem short_cells (hops : ops log = plan mem buf sector num)
    (hdata : ∀ e ∈ log, Dataless e.segs) (hsize : flash.cr3v.getLsbD 1 = false) {i : ℕ}
    (hi : i < num * 2 ^ 18) : (flash.run (fun _ => false) log).cells (sector * 2 ^ 18 + i) =
      if i % 2 ^ 18 < 2 ^ 16 then mem (buf + BitVec.ofNat 64 i)
      else flash.cells (sector * 2 ^ 18 + i) &&& mem (buf + BitVec.ofNat 64 i) := by
  rw [run_ops hdata, hops, plan_cells (fun c old new => if c % 2 ^ 18 < 2 ^ 16 then new
    else old &&& new) (fun f hf buf k c => sectorPlan_cells_short (by rw [hf, hsize])),
    if_pos (by omega), Nat.add_sub_cancel_left]
  exact if_congr (by omega) rfl rfl

end Run

/-! ## Main result -/

/-- **Main result.** A run that returns 0 does its work if and only if it has none, or CR3V has its
value already. -/
theorem singleFlash_stores_iff (small : ℕ → Bool) (flash : Flash) (bus : Bus) (fuel : ℕ) (mem : Mem)
    (spiFreq buf : U64) {sector numSectors : U64} {log : List Entry}
    (h : sector.toNat + numSectors.toNat ≤ 256)
    (hok : singleFlash bus fuel mem spiFreq buf sector numSectors [] = .ok () log) :
    Stores small flash mem buf sector.toNat numSectors.toNat log ↔
      numSectors = 0 ∨ flash.cr3v = 0x02 := by
  have hzero : numSectors.toNat = 0 ↔ numSectors = 0 := by
    rw [BitVec.toNat_eq]
    rfl
  rw [stores_iff (singleFlash_ops h hok) (singleFlash_dataless hok), hzero]

/-! ## A flash that is always ready -/

def ready : Bus := fun _ => ⟨0, fun _ => 0⟩

theorem ready_ok (fuel : ℕ) (mem : Mem) {spiFreq : U64} (hfreq : spiFreq < 100 * 1000 * 1000)
    (buf sector numSectors : U64) :
    ∃ log, singleFlash ready (fuel + 1) mem spiFreq buf sector numSectors [] = .ok () log := by
  have htransaction (segs : List Segment) :
      Triple (fun _ => True) (transaction ready segs) (fun rx _ => rx = fun _ => 0)
        fun _ _ => False := by
    intro log _
    have hzero : (ready log.length).result = 0 := rfl
    unfold transaction
    rw [if_pos hzero]
    rfl
  have hpoll : Triple (fun _ => True) (pollWip ready (fuel + 1)) (fun c _ => c = 0)
      fun _ _ => False := by
    refine Triple.bind (htransaction _) fun rx log hrx => ?_
    rw [hrx]
    rfl
  have hkeeps : Keeps ready (fuel + 1) (fun _ => True) fun _ _ => False := by
    refine ⟨fun segs _ log h => (htransaction segs log h).mono (fun _ _ _ => trivial)
      fun _ _ => id, Triple.bind hpoll fun c => Triple.ite (fun _ _ _ => trivial) fun hc => ?_⟩
    exact fun log hzero => absurd hzero hc
  have hends := hkeeps.singleFlash hfreq mem buf sector numSectors [] trivial
  cases hres : singleFlash ready (fuel + 1) mem spiFreq buf sector numSectors [] with
  | ok u log => exact ⟨log, rfl⟩
  | error e log =>
    rw [hres] at hends
    exact hends.elim

/-- One sector, with CR3V as it has to be. -/
theorem singleFlash_stores_iff_ready : ∃ log,
    singleFlash ready 1 (fun _ => 0xA5) 50000000 0x10000000 3 1 [] = .ok () log ∧
    Stores (fun _ => true) ⟨0x02, fun _ => 0⟩ (fun _ => 0xA5) 0x10000000 3 1 log := by
  obtain ⟨log, hok⟩ := ready_ok 0 (fun _ => 0xA5) (show 50000000 < _ by decide) 0x10000000 3 1
  exact ⟨log, hok, (singleFlash_stores_iff _ _ _ _ _ _ _ (by decide) hok).2 (.inr rfl)⟩

/-- CR3V chooses erases of 64 KiB, and all cells are 0. The rest of the sector remains 0. -/
theorem shortErase_not_stores : ∃ log,
    singleFlash ready 1 (fun _ => 0xFF) 50000000 0x10000000 0 1 [] = .ok () log ∧
    ¬Stores (fun _ => false) ⟨0x00, fun _ => 0⟩ (fun _ => 0xFF) 0x10000000 0 1 log ∧
    (Flash.run (fun _ => false) ⟨0x00, fun _ => 0⟩ log).cells 0x10000 = 0 := by
  obtain ⟨log, hok⟩ := ready_ok 0 (fun _ => 0xFF) (show 50000000 < _ by decide) 0x10000000 0 1
  have hops : ops log = plan (fun _ => 0xFF) 0x10000000 0 1 := singleFlash_ops (by decide) hok
  have hzero : (Flash.run (fun _ => false) ⟨0x00, fun _ => 0⟩ log).cells 0x10000 = 0 :=
    short_cells hops (singleFlash_dataless hok) rfl (show 0x10000 < 1 * 2 ^ 18 by decide)
  refine ⟨log, hok, fun h => ?_, hzero⟩
  have hnew := h.data 0x10000 (by decide)
  exact absurd (hzero.symm.trans hnew) (by decide)

end Cheshire.SpiFlash
