import Cheshire.Lib.Events
import Mathlib.Logic.Function.Basic
import Mathlib.Data.List.Sort

/-!
# Waiting for the DMA engine: `dif/dma.h`

A hart sets the registers of the DMA engine, launches a transfer by reading its ID, and polls until
the ID of the latest completed transfer is that of its own. Other harts launch transfers at any
time. The engine hands out increasing IDs and completes the transfers in the order of their issue.

**Theorem (`evaluations_right_iff`).** The wait condition is right at every evaluation of a run
exactly if no transfer issued later has completed at any evaluation after the hart's own transfer
has. Before its own transfer has completed the condition always holds, as it should.

**Theorem (`overtaken_forever`).** Once a later transfer has completed, the condition holds at all
evaluations to come, and the function does not return.
-/

namespace Cheshire.Dma

open Lib

/-! ## The functions -/

/-- The registers of a transfer. -/
inductive DmaReg
  | srcAddr | dstAddr | numBytes | conf | srcStride | dstStride | numReps
deriving DecidableEq, Repr

/-- The arguments of `sys_dma_blk_memcpy` and `sys_dma_2d_blk_memcpy`. -/
inductive BlkCall
  | memcpy (dst src size conf : BitVec 64)
  | memcpy2d (dst src size dstStride srcStride numReps conf : BitVec 64)

/-- The stores before the transfer is launched, in their order. -/
def BlkCall.stores : BlkCall → List (DmaReg × BitVec 64)
  | .memcpy dst src size conf =>
    [(.srcAddr, src), (.dstAddr, dst), (.numBytes, size), (.conf, conf)]
  | .memcpy2d dst src size dstStride srcStride numReps conf =>
    [(.srcAddr, src), (.dstAddr, dst), (.numBytes, size), (.conf, conf ||| 1 <<< 10),
      (.srcStride, srcStride), (.dstStride, dstStride), (.numReps, numReps)]

/-- Where a hart is in one of the functions: at its stores, with the read of the next ID after
them, at the loop, or behind it. -/
inductive Hart
  | stores (left : List (DmaReg × BitVec 64))
  | polls (tfId : ℕ)
  | returned (tfId : ℕ)

/-! ## The engine and its users -/

/-- A transfer, with the contents of the registers at its launch. -/
structure Transfer where
  id : ℕ
  args : DmaReg → BitVec 64

/-- The engine and the hart. The transfers that have completed are listed from the latest. -/
structure State where
  regs : DmaReg → BitVec 64
  lastId : ℕ
  pending : List Transfer
  completed : List Transfer
  hart : Hart

/-- The register DONE_ID. It is 0 as long as no transfer has completed. -/
def State.doneId (s : State) : ℕ := (s.completed.map Transfer.id).headD 0

/-- The condition of the loop. -/
def State.waits (s : State) (tfId : ℕ) : Bool := s.doneId != tfId

inductive Event
  /-- The hart's next store. -/
  | store
  /-- The hart launches its transfer and gets the ID. -/
  | launch (id : ℕ)
  /-- The hart evaluates the wait condition. -/
  | evaluate
  /-- Another issuer stores to a register. -/
  | otherStore (reg : DmaReg) (value : BitVec 64)
  /-- Another issuer launches a transfer. -/
  | otherLaunch (id : ℕ)
  /-- The engine completes the transfer at the head of its queue. -/
  | complete

/-- A launch. The IDs increase. -/
def State.issue (s : State) (id : ℕ) : Option State :=
  if s.lastId < id then
    some { s with lastId := id, pending := s.pending ++ [⟨id, s.regs⟩] }
  else none

def step (s : State) : Event → Option State
  | .store =>
    match s.hart with
    | .stores ((reg, value) :: left) =>
      some { s with regs := Function.update s.regs reg value, hart := .stores left }
    | _ => none
  | .launch id =>
    match s.hart with
    | .stores [] => (s.issue id).map fun s' => { s' with hart := .polls id }
    | _ => none
  | .evaluate =>
    match s.hart with
    | .polls tfId => some (if s.waits tfId then s else { s with hart := .returned tfId })
    | _ => none
  | .otherStore reg value => some { s with regs := Function.update s.regs reg value }
  | .otherLaunch id => s.issue id
  | .complete =>
    match s.pending with
    | [] => none
    | tf :: rest => some { s with pending := rest, completed := tf :: s.completed }

/-- The engine after reset, and a hart that is about to make a call. -/
def start (regs : DmaReg → BitVec 64) (call : BlkCall) : State :=
  ⟨regs, 0, [], [], .stores call.stores⟩

/-- The hart's transfer has completed. -/
def State.Completed (s : State) (tfId : ℕ) : Prop := tfId ∈ s.completed.map Transfer.id

instance (s : State) (tfId : ℕ) : Decidable (s.Completed tfId) :=
  inferInstanceAs (Decidable (tfId ∈ _))

/-- A transfer issued after the hart's has completed. -/
def State.Overtaken (s : State) (tfId : ℕ) : Prop := ∃ id ∈ s.completed.map Transfer.id, tfId < id

/-! ## Invariants -/

/-- All transfers in the order of their issue, from the latest. -/
def State.ids (s : State) : List ℕ := (s.pending.reverse ++ s.completed).map Transfer.id

/-- The IDs decrease from the latest to the first issue, and the hart waits for one of them. -/
structure State.Ordered (s : State) : Prop where
  sorted : s.ids.Pairwise (· > ·)
  positive : ∀ id ∈ s.ids, 0 < id
  bounded : ∀ id ∈ s.ids, id ≤ s.lastId
  own : ∀ tfId, s.hart = .polls tfId → tfId ∈ s.ids

section Step

variable {s s' : State} {e : Event}

theorem issue_spec {id : ℕ} (h : s.issue id = some s') :
    s.lastId < id ∧ s' = { s with lastId := id, pending := s.pending ++ [⟨id, s.regs⟩] } := by
  unfold State.issue at h
  split_ifs at h with hlt
  exact ⟨hlt, (Option.some.inj h).symm⟩

theorem ids_issue (s : State) (tf : Transfer) :
    State.ids { s with lastId := tf.id, pending := s.pending ++ [tf] } = tf.id :: s.ids := by
  simp [State.ids]

theorem ids_complete {tf : Transfer} {rest : List Transfer} (h : s.pending = tf :: rest) :
    State.ids { s with pending := rest, completed := tf :: s.completed } = s.ids := by
  simp [State.ids, h]

/-! What each event of the hart and of the engine needs and does. -/

theorem step_store (h : step s .store = some s') : ∃ reg value left,
    s.hart = .stores ((reg, value) :: left) ∧
      s' = { s with regs := Function.update s.regs reg value, hart := .stores left } := by
  cases hhart : s.hart with
  | stores all =>
    cases all with
    | nil => simp [step, hhart] at h
    | cons p left => exact ⟨p.1, p.2, left, rfl, by simpa [step, hhart] using h.symm⟩
  | polls tfId => simp [step, hhart] at h
  | returned tfId => simp [step, hhart] at h

theorem step_launch {id : ℕ} (h : step s (.launch id) = some s') : s.hart = .stores [] ∧
    s.lastId < id ∧ s' = { s with
      lastId := id, pending := s.pending ++ [⟨id, s.regs⟩], hart := .polls id } := by
  cases hhart : s.hart with
  | stores all =>
    cases all with
    | nil =>
      simp only [step, hhart, Option.map_eq_some_iff] at h
      obtain ⟨s₁, hissue, rfl⟩ := h
      obtain ⟨hlt, rfl⟩ := issue_spec hissue
      exact ⟨rfl, hlt, rfl⟩
    | cons p left => simp [step, hhart] at h
  | polls tfId => simp [step, hhart] at h
  | returned tfId => simp [step, hhart] at h

theorem step_evaluate (h : step s .evaluate = some s') : ∃ tfId, s.hart = .polls tfId ∧
    s' = if s.waits tfId then s else { s with hart := .returned tfId } := by
  cases hhart : s.hart with
  | stores all => simp [step, hhart] at h
  | polls tfId => exact ⟨tfId, rfl, by simpa [step, hhart] using h.symm⟩
  | returned tfId => simp [step, hhart] at h

theorem step_complete (h : step s .complete = some s') : ∃ tf rest, s.pending = tf :: rest ∧
    s' = { s with pending := rest, completed := tf :: s.completed } := by
  cases hpending : s.pending with
  | nil => simp [step, hpending] at h
  | cons tf rest => exact ⟨tf, rest, rfl, by simpa [step, hpending] using h.symm⟩

/-- An event is a launch, or leaves all transfers where they are in the order of their issue. -/
theorem step_cases (h : step s e = some s') :
    (s'.ids = s.ids ∧ s'.lastId = s.lastId ∧
        ∀ tfId, s'.hart = .polls tfId → s.hart = .polls tfId) ∨
      ∃ id, s.lastId < id ∧ s'.ids = id :: s.ids ∧ s'.lastId = id ∧
        ∀ tfId, s'.hart = .polls tfId → tfId = id ∨ s.hart = .polls tfId := by
  cases e with
  | store =>
    obtain ⟨reg, value, left, -, rfl⟩ := step_store h
    exact Or.inl ⟨rfl, rfl, fun _ hpolls => Hart.noConfusion hpolls⟩
  | launch id =>
    obtain ⟨-, hlt, rfl⟩ := step_launch h
    exact Or.inr ⟨id, hlt, ids_issue s ⟨id, s.regs⟩, rfl,
      fun _ hpolls => Or.inl (Hart.polls.inj hpolls).symm⟩
  | evaluate =>
    obtain ⟨tfId, hhart, rfl⟩ := step_evaluate h
    refine Or.inl ?_
    split_ifs
    · exact ⟨rfl, rfl, fun _ hpolls => hpolls⟩
    · exact ⟨rfl, rfl, fun _ hpolls => nomatch hpolls⟩
  | otherStore reg value =>
    obtain rfl := Option.some.inj h
    exact Or.inl ⟨rfl, rfl, fun _ hpolls => hpolls⟩
  | otherLaunch id =>
    obtain ⟨hlt, rfl⟩ := issue_spec h
    exact Or.inr ⟨id, hlt, ids_issue s ⟨id, s.regs⟩, rfl, fun _ hpolls => Or.inr hpolls⟩
  | complete =>
    obtain ⟨tf, rest, hpending, rfl⟩ := step_complete h
    exact Or.inl ⟨ids_complete hpending, rfl, fun _ hpolls => hpolls⟩

theorem Ordered.step (s : State) (e : Event) (s' : State) (hs : s.Ordered)
    (h : step s e = some s') : s'.Ordered := by
  rcases step_cases h with ⟨hids, hlast, hhart⟩ | ⟨id, hlt, hids, hlast, hhart⟩
  · refine ⟨?_, ?_, ?_, fun tfId hpolls => ?_⟩
    · rw [hids]
      exact hs.sorted
    · rw [hids]
      exact hs.positive
    · rw [hids, hlast]
      exact hs.bounded
    · rw [hids]
      exact hs.own tfId (hhart tfId hpolls)
  · refine ⟨?_, ?_, ?_, fun tfId hpolls => ?_⟩
    · rw [hids]
      exact List.pairwise_cons.mpr ⟨fun id' hid' => (hs.bounded id' hid').trans_lt hlt, hs.sorted⟩
    · rw [hids]
      exact List.forall_mem_cons.mpr ⟨by omega, hs.positive⟩
    · rw [hids, hlast]
      exact List.forall_mem_cons.mpr ⟨le_rfl, fun id' hid' => (hs.bounded id' hid').trans hlt.le⟩
    · rw [hids]
      rcases hhart tfId hpolls with rfl | hpolls
      · exact List.mem_cons_self
      · exact List.mem_cons_of_mem _ (hs.own tfId hpolls)

theorem Ordered.start (regs : DmaReg → BitVec 64) (call : BlkCall) : (start regs call).Ordered where
  sorted := List.Pairwise.nil
  positive := fun _ hid => absurd hid List.not_mem_nil
  bounded := fun _ hid => absurd hid List.not_mem_nil
  own := fun _ hpolls => Hart.noConfusion hpolls

end Step

/-! ## The transfer that is launched -/

def applyStores (regs : DmaReg → BitVec 64) (stores : List (DmaReg × BitVec 64)) :
    DmaReg → BitVec 64 :=
  stores.foldl (fun regs p => Function.update regs p.1 p.2) regs

/-- The hart's stores are under way, and no other's have come in between. -/
def Storing (target : DmaReg → BitVec 64) (s : State) : Prop :=
  ∀ left, s.hart = .stores left → applyStores s.regs left = target

theorem Storing.step {target : DmaReg → BitVec 64} (s : State) (e : Event) (s' : State)
    (hquiet : ∀ reg value, e ≠ .otherStore reg value) (hs : Storing target s)
    (h : step s e = some s') : Storing target s' := by
  intro left hleft
  cases e with
  | store =>
    obtain ⟨reg, value, rest, hhart, rfl⟩ := step_store h
    obtain rfl := Hart.stores.inj hleft
    exact hs _ hhart
  | launch id =>
    obtain ⟨-, -, rfl⟩ := step_launch h
    exact Hart.noConfusion hleft
  | evaluate =>
    obtain ⟨tfId, hhart, rfl⟩ := step_evaluate h
    split_ifs at hleft
    exact Hart.noConfusion (hhart.symm.trans hleft)
  | otherStore reg value => exact absurd rfl (hquiet reg value)
  | otherLaunch id =>
    obtain ⟨-, rfl⟩ := issue_spec h
    exact hs left hleft
  | complete =>
    obtain ⟨tf, rest, -, rfl⟩ := step_complete h
    exact hs left hleft

/-- The hart launches the transfer that it was called for, if no other issuer stores to the
registers before. -/
theorem launch_args (regs : DmaReg → BitVec 64) (call : BlkCall) {es : List Event}
    (hquiet : ∀ e ∈ es, ∀ reg value, e ≠ .otherStore reg value) {s s' : State} {id : ℕ}
    (h : runEvents step (start regs call) es = some s) (hlaunch : step s (.launch id) = some s') :
    s'.pending = s.pending ++ [⟨id, applyStores regs call.stores⟩] := by
  have hstart : Storing (applyStores regs call.stores) (start regs call) := by
    intro left hleft
    obtain rfl := Hart.stores.inj hleft
    rfl
  obtain ⟨hhart, -, rfl⟩ := step_launch hlaunch
  have hregs := runEvents_invariant Storing.step hquiet hstart h [] hhart
  show s.pending ++ [⟨id, s.regs⟩] = _
  rw [← hregs, applyStores, List.foldl_nil]

/-! ## The wait condition -/

section Wait

variable {s : State} {tfId : ℕ}

/-- The condition holds before the hart's transfer has completed, and fails from then on. -/
structure State.Right (s : State) (tfId : ℕ) : Prop where
  before : ¬s.Completed tfId → s.waits tfId = true
  behind : s.Completed tfId → s.waits tfId = false

theorem completed_ids (hs : s.Ordered) : (s.completed.map Transfer.id).Pairwise (· > ·) ∧
    ∀ id ∈ s.completed.map Transfer.id, 0 < id := by
  have hids : s.ids = s.pending.reverse.map Transfer.id ++ s.completed.map Transfer.id :=
    List.map_append
  have hsorted := hs.sorted
  have hpositive := hs.positive
  rw [hids] at hsorted hpositive
  exact ⟨(List.pairwise_append.mp hsorted).2.1,
    fun id hid => hpositive id (List.mem_append_right _ hid)⟩

/-- DONE_ID is the largest ID that has completed. -/
theorem le_doneId (hs : s.Ordered) {id : ℕ} (hid : id ∈ s.completed.map Transfer.id) :
    id ≤ s.doneId ∧ s.Completed s.doneId := by
  have hsorted := (completed_ids hs).1
  unfold State.Completed State.doneId
  cases hlist : s.completed.map Transfer.id with
  | nil =>
    rw [hlist] at hid
    exact absurd hid List.not_mem_nil
  | cons top rest =>
    rw [hlist] at hid hsorted
    refine ⟨?_, List.mem_cons_self⟩
    rcases List.mem_cons.mp hid with rfl | hid
    · exact le_rfl
    · exact ((List.pairwise_cons.mp hsorted).1 id hid).le

/-- Before the hart's transfer has completed, DONE_ID is another one. -/
theorem waits_before (hs : s.Ordered) (hown : tfId ∈ s.ids) (h : ¬s.Completed tfId) :
    s.waits tfId = true := by
  refine bne_iff_ne.mpr fun heq => ?_
  cases hlist : s.completed.map Transfer.id with
  | nil =>
    have hpos := hs.positive tfId hown
    have hzero : s.doneId = 0 := by rw [State.doneId, hlist, List.headD_nil]
    omega
  | cons top rest =>
    have htop : top ∈ s.completed.map Transfer.id := hlist ▸ List.mem_cons_self
    exact h (heq ▸ (le_doneId hs htop).2)

/-- From then on, it is the hart's own as long as no later one has completed. -/
theorem waits_behind (hs : s.Ordered) (h : s.Completed tfId) :
    s.waits tfId = false ↔ ¬s.Overtaken tfId := by
  obtain ⟨hle, hdone⟩ := le_doneId hs h
  rw [State.waits, bne_eq_false_iff_eq]
  constructor
  · rintro heq ⟨id, hid, hlt⟩
    have := (le_doneId hs hid).1
    omega
  · intro hno
    by_contra hne
    exact hno ⟨s.doneId, hdone, by omega⟩

theorem waits_overtaken (hs : s.Ordered) (h : s.Overtaken tfId) : s.waits tfId = true := by
  obtain ⟨id, hid, hlt⟩ := h
  have hle := (le_doneId hs hid).1
  exact bne_iff_ne.mpr (by omega)

theorem right_iff (hs : s.Ordered) (hown : tfId ∈ s.ids) :
    s.Right tfId ↔ (s.Completed tfId → ¬s.Overtaken tfId) :=
  ⟨fun h hcompleted => (waits_behind hs hcompleted).mp (h.behind hcompleted),
    fun h => ⟨waits_before hs hown,
      fun hcompleted => (waits_behind hs hcompleted).mpr (h hcompleted)⟩⟩

end Wait

/-! ## Runs -/

/-- The hart evaluates the wait condition for its transfer. -/
def Evaluates (v : State × Event) (tfId : ℕ) : Prop := v.2 = .evaluate ∧ v.1.hart = .polls tfId

/-- **Main result.** In a run, the wait condition is right at every evaluation exactly if no
transfer issued later has completed at any evaluation after the completion of the hart's own. -/
theorem evaluations_right_iff (regs : DmaReg → BitVec 64) (call : BlkCall) (es : List Event) :
    (∀ v ∈ visits step (start regs call) es, ∀ tfId, Evaluates v tfId → v.1.Right tfId) ↔
      ∀ v ∈ visits step (start regs call) es, ∀ tfId, Evaluates v tfId →
        v.1.Completed tfId → ¬v.1.Overtaken tfId := by
  have hordered : ∀ v ∈ visits step (start regs call) es, v.1.Ordered :=
    visits_invariant Ordered.step (Ordered.start regs call)
  refine forall₂_congr fun v hv => forall₂_congr fun tfId heval => ?_
  exact right_iff (hordered v hv) ((hordered v hv).own tfId heval.2)

theorem overtaken_step {s s' : State} {tfId : ℕ} {e : Event} (hs : s.Ordered)
    (hpolls : s.hart = .polls tfId) (hover : s.Overtaken tfId) (h : step s e = some s') :
    s'.hart = .polls tfId ∧ s'.Overtaken tfId := by
  cases e with
  | store =>
    obtain ⟨reg, value, left, hhart, -⟩ := step_store h
    exact Hart.noConfusion (hpolls.symm.trans hhart)
  | launch id => exact Hart.noConfusion (hpolls.symm.trans (step_launch h).1)
  | evaluate =>
    obtain ⟨id, hhart, rfl⟩ := step_evaluate h
    obtain rfl := Hart.polls.inj (hpolls.symm.trans hhart)
    rw [if_pos (waits_overtaken hs hover)]
    exact ⟨hpolls, hover⟩
  | otherStore reg value =>
    obtain rfl := Option.some.inj h
    exact ⟨hpolls, hover⟩
  | otherLaunch id =>
    obtain ⟨-, rfl⟩ := issue_spec h
    exact ⟨hpolls, hover⟩
  | complete =>
    obtain ⟨tf, rest, -, rfl⟩ := step_complete h
    obtain ⟨id, hid, hlt⟩ := hover
    exact ⟨hpolls, id, List.mem_cons_of_mem _ hid, hlt⟩

/-- **A missed completion is missed forever.** The hart polls on, whatever happens. -/
theorem overtaken_forever {s s' : State} {tfId : ℕ} {es : List Event} (hs : s.Ordered)
    (hpolls : s.hart = .polls tfId) (hover : s.Overtaken tfId)
    (h : runEvents step s es = some s') : s'.hart = .polls tfId ∧ s'.waits tfId = true := by
  have hkeeps (s : State) (e : Event) (s' : State) (_ : True)
      (hs : s.Ordered ∧ s.hart = .polls tfId ∧ s.Overtaken tfId) (h : step s e = some s') :
      s'.Ordered ∧ s'.hart = .polls tfId ∧ s'.Overtaken tfId :=
    ⟨Ordered.step s e s' hs.1 h, overtaken_step hs.1 hs.2.1 hs.2.2 h⟩
  obtain ⟨hs', hpolls', hover'⟩ :=
    runEvents_invariant hkeeps (fun _ _ => trivial) ⟨hs, hpolls, hover⟩ h
  exact ⟨hpolls', waits_overtaken hs' hover'⟩

/-- The hart's transfer gets the ID 1 and another one the ID 2. Both complete before the hart
looks. -/
def overtakenRun : List Event :=
  [.store, .store, .store, .store, .launch 1, .otherLaunch 2, .complete, .complete, .evaluate]

theorem overtakenRun_wrong : ¬∀ (regs : DmaReg → BitVec 64) (call : BlkCall) (es : List Event),
    ∀ v ∈ visits step (start regs call) es, ∀ tfId, Evaluates v tfId → v.1.Right tfId := by
  intro h
  have hright := h (fun _ => 0) (.memcpy 0 0 0 0) overtakenRun _
    (List.getLast_mem (List.cons_ne_nil _ _)) 1 ⟨rfl, rfl⟩
  exact absurd (hright.behind (by decide)) (by decide)

end Cheshire.Dma
