import Cheshire.Zsl
import Mathlib.Tactic.SplitIfs

/-!
# What the zero-stage loader launches

**Theorem (`main_launches_iff`).** When `main` calls the firmware, the device tree and the
firmware are in place, unless one of the two payload copies has failed: their return values are
ignored. So the loader is right exactly for the failure patterns that spare the two copies, or
that also make a search fail or find nothing.

The calls of the callback are counted: a search makes a number of calls that depends on the disk
only (`searchReads`), all of them succeed or the search fails, and it does not touch memory.
-/

namespace Cheshire.Zsl

open Lib Gpt

/-! ## Single calls -/

/-- The number of the call that comes next. -/
def State.next (s : State) : ℕ := s.calls.length

/-- Whether a call copies to an address of the loader's. -/
def Call.isCopy (c : Call) : Bool :=
  match c.buf with
  | .ext _ => true
  | _ => false

def State.copies (s : State) : List Call := s.calls.filter Call.isCopy

/-- What call `i` returns and leaves, if it asks for the bytes from `addr` on. -/
def Device.answer (dev : Device) (i : ℕ) (addr : U64) : Reply :=
  match dev.fails i with
  | none => ⟨0, dev.disk.from addr⟩
  | some f => ⟨f.code, f.left⟩

section Calls

variable {dev : Device} {rgp : U64} {buf : Buf} {addr len : U64} {s s' : State}

theorem answer_ret (i : ℕ) : (dev.answer i addr).ret = 0 ↔ dev.fails i = none := by
  unfold Device.answer
  cases h : dev.fails i with
  | none => exact ⟨fun _ => rfl, fun _ => rfl⟩
  | some f => exact ⟨fun hc => absurd hc f.nonzero, fun hn => absurd hn (Option.some_ne_none f)⟩

theorem answer_data {i : ℕ} (h : dev.fails i = none) :
    (dev.answer i addr).data = dev.disk.from addr := by
  rw [Device.answer, h]

/-- Memory after the callback has left `data` in `buf`. -/
def stored (mem : Mem) (buf : Buf) (len : U64) (data : ℕ → Byte) : Mem :=
  match buf with
  | .ext p => mem.write p len.toNat data
  | _ => mem

theorem callback_eq : dev.callback buf addr len s = (dev.answer s.next addr, ⟨s.gp,
    stored s.mem buf len (dev.answer s.next addr).data,
    s.calls ++ [⟨buf, addr, len, (dev.answer s.next addr).ret⟩]⟩) := by
  unfold Device.callback Device.answer State.next
  cases dev.fails s.calls.length <;> rfl

/-- Up to the global pointer, `grread` is the callback. -/
theorem grread_eq (dev : Device) (rgp : U64) (buf : Buf) (addr len : U64) (s : State) :
    ∃ gp, dev.grread rgp buf addr len s = (dev.answer s.next addr, ⟨gp,
    stored s.mem buf len (dev.answer s.next addr).data,
    s.calls ++ [⟨buf, addr, len, (dev.answer s.next addr).ret⟩]⟩) := by
  have hset (gp : U64) (t : State) : ∃ g, (gprw dev.env gp t).2 = { t with gp := g } := by
    unfold gprw
    split_ifs
    · exact ⟨gp, rfl⟩
    · exact ⟨t.gp, rfl⟩
  obtain ⟨g₁, h₁⟩ := hset rgp s
  obtain ⟨g₂, h₂⟩ := hset s.gp (dev.callback buf addr len { s with gp := g₁ }).2
  refine ⟨g₂, ?_⟩
  have hrun : dev.grread rgp buf addr len s =
      ((dev.callback buf addr len (gprw dev.env rgp s).2).1,
        (gprw dev.env s.gp (dev.callback buf addr len (gprw dev.env rgp s).2).2).2) := rfl
  rw [hrun, h₁, h₂, callback_eq]
  rfl

/-- What a call with a destination outside does. -/
theorem grread_copy (dev : Device) (rgp dst addr len : U64) (s : State) :
    (dev.grread rgp (.ext dst) addr len s).2.mem =
        s.mem.write dst len.toNat (dev.answer s.next addr).data ∧
      (dev.grread rgp (.ext dst) addr len s).2.copies =
        s.copies ++ [⟨.ext dst, addr, len, (dev.answer s.next addr).ret⟩] ∧
      (dev.grread rgp (.ext dst) addr len s).2.next = s.next + 1 := by
  obtain ⟨gp, heq⟩ := grread_eq dev rgp (.ext dst) addr len s
  rw [heq]
  refine ⟨rfl, ?_, ?_⟩
  · simp [State.copies, Call.isCopy]
  · simp [State.next]

end Calls

/-! ## Counting the calls of a search -/

section Counting

variable (dev : Device)

/-- `n` calls, none of which fails or copies. -/
structure Quiet (n : ℕ) (s s' : State) : Prop where
  mem : s'.mem = s.mem
  copies : s'.copies = s.copies
  next : s'.next = s.next + n
  spared : ∀ i < n, dev.fails (s.next + i) = none

/-- One of the next `n` calls fails. -/
def FailsWithin (n : ℕ) (s : State) : Prop := ∃ i < n, dev.fails (s.next + i) ≠ none

variable {dev} {rgp : U64} {s s₁ s' : State} {m n : ℕ}

theorem Quiet.refl (s : State) : Quiet dev 0 s s :=
  ⟨rfl, rfl, rfl, fun i hi => absurd hi (Nat.not_lt_zero i)⟩

theorem Quiet.trans (h : Quiet dev m s s₁) (h' : Quiet dev n s₁ s') : Quiet dev (m + n) s s' where
  mem := h'.mem.trans h.mem
  copies := h'.copies.trans h.copies
  next := by rw [h'.next, h.next, Nat.add_assoc]
  spared i hi := by
    by_cases hm : i < m
    · exact h.spared i hm
    · have := h'.spared (i - m) (by omega)
      rwa [h.next, Nat.add_assoc, Nat.add_sub_of_le (Nat.not_lt.1 hm)] at this

theorem FailsWithin.after (h : Quiet dev m s s₁) (h' : FailsWithin dev n s₁) :
    FailsWithin dev (m + n) s := by
  obtain ⟨i, hi, hf⟩ := h'
  rw [h.next, Nat.add_assoc] at hf
  exact ⟨m + i, by omega, hf⟩

theorem FailsWithin.mono (h : FailsWithin dev m s) (hmn : m ≤ n) : FailsWithin dev n s := by
  obtain ⟨i, hi, hf⟩ := h
  exact ⟨i, lt_of_lt_of_le hi hmn, hf⟩

theorem reads_quiet {buf : Buf} {addr len : U64} {data : ℕ → Byte}
    (h : Reads (dev.grread rgp) buf addr len s data s') (hbuf : buf.Table) : Quiet dev 1 s s' := by
  obtain ⟨gp, heq⟩ := grread_eq dev rgp buf addr len s
  rw [Reads, heq, Prod.mk.injEq] at h
  obtain ⟨hr, rfl⟩ := h
  have hnone : dev.fails s.next = none := (answer_ret _).1 (congrArg Reply.ret hr)
  refine ⟨?_, ?_, ?_, ?_⟩
  · cases buf <;> first | rfl | exact hbuf.elim
  · cases buf <;> first | exact hbuf.elim | simp [State.copies, Call.isCopy]
  · simp [State.next]
  · intro i hi
    obtain rfl : i = 0 := by omega
    exact hnone

theorem fails_within {buf : Buf} {addr len : U64} {c : CInt}
    (h : Fails (dev.grread rgp) buf addr len s c s') : FailsWithin dev 1 s := by
  obtain ⟨gp, heq⟩ := grread_eq dev rgp buf addr len s
  obtain ⟨hc, data, hread⟩ := h
  rw [heq, Prod.mk.injEq] at hread
  refine ⟨0, Nat.one_pos, fun hnone => hc ?_⟩
  rw [← (answer_ret _).2 hnone]
  exact (congrArg Reply.ret hread.1).symm

theorem grread_honest (dev : Device) (rgp : U64) : Honest (dev.grread rgp) dev.disk := by
  intro buf addr len s data s' h i _
  obtain ⟨gp, heq⟩ := grread_eq dev rgp buf addr len s
  rw [Reads, heq, Prod.mk.injEq] at h
  have hnone : dev.fails s.next = none := (answer_ret _).1 (congrArg Reply.ret h.1)
  have hdata := congrArg Reply.data h.1
  rw [answer_data hnone] at hdata
  exact (congrFun hdata i).symm

end Counting

/-- How many reads the search makes at entry `k`. -/
def entryReads (disk : Disk) (maxLbas : U64) (tguid pguid : Option Guid) (k : ℕ) : ℕ :=
  if (disk.part k).Fits maxLbas then
    1 + tguid.isSome.toNat +
      if tguid = some (disk.typeGuid k) then 0 else pguid.isSome.toNat
  else 1

/-- How many reads the search makes from entry `p` on, with `n` entries left. -/
def tableReads (disk : Disk) (maxLbas : U64) (tguid pguid : Option Guid) : ℕ → ℕ → ℕ
  | 0, _ => 0
  | n + 1, p => entryReads disk maxLbas tguid pguid p +
      if disk.Matches maxLbas tguid pguid p then 0
      else tableReads disk maxLbas tguid pguid n (p + 1)

/-- How many reads the search of a disk makes if none of them fails. -/
def searchReads (disk : Disk) (maxLbas : U64) (tguid pguid : Option Guid) : ℕ :=
  1 + tableReads disk maxLbas tguid pguid disk.count 0

section Search

variable {dev : Device} {rgp maxLbas : U64} {tguid pguid : Option Guid} {p : ℕ}
  {s s₁ s' : State} {d : PartFields} {out out' : FindOut} {c : CInt}

theorem compares_quiet {g : Option Guid} {addr : U64} {b : Bool}
    (h : Compares (dev.grread rgp) g addr s b s') : Quiet dev g.isSome.toNat s s' := by
  cases h with
  | null => exact .refl s
  | read hread => exact reads_quiet hread trivial

theorem compareFails_within {g : Option Guid} {addr : U64}
    (h : CompareFails (dev.grread rgp) g addr s c s') : FailsWithin dev g.isSome.toNat s := by
  cases h with
  | read hread => exact fails_within hread

theorem sized_quiet {hf : HdrFields} (h : Sized (dev.grread rgp) hf p s d s') :
    Quiet dev 1 s s' := by
  obtain ⟨data, hread, -⟩ := h
  exact reads_quiet hread trivial

theorem header_quiet {hf : HdrFields} (h : Header (dev.grread rgp) s hf s') :
    Quiet dev 1 s s' := by
  obtain ⟨data, hread, -⟩ := h
  exact reads_quiet hread trivial

theorem entryReads_tooLarge (h : ¬(dev.disk.part p).Fits maxLbas) :
    entryReads dev.disk maxLbas tguid pguid p = 1 := if_neg h

theorem entryReads_tguid (h : (dev.disk.part p).Fits maxLbas)
    (ht : tguid = some (dev.disk.typeGuid p)) :
    entryReads dev.disk maxLbas tguid pguid p = 1 + tguid.isSome.toNat := by
  rw [entryReads, if_pos h, if_pos ht, Nat.add_zero]

theorem entryReads_pguid (h : (dev.disk.part p).Fits maxLbas)
    (ht : tguid ≠ some (dev.disk.typeGuid p)) :
    entryReads dev.disk maxLbas tguid pguid p = 1 + tguid.isSome.toNat + pguid.isSome.toNat := by
  rw [entryReads, if_pos h, if_neg ht]

theorem compares_false {addr : U64} {g : Option Guid}
    (h : Compares (dev.grread rgp) g addr s false s') : g ≠ some (guidAt (dev.disk.from addr)) :=
  fun hg => Bool.noConfusion ((h.iff (grread_honest dev rgp)).2 hg)

theorem skipped_quiet
    (h : Skipped (dev.grread rgp) maxLbas tguid pguid dev.disk.header p s d s') :
    Quiet dev (entryReads dev.disk maxLbas tguid pguid p) s s' := by
  cases h with
  | tooLarge hd hfit =>
    rw [hd.eq (grread_honest dev rgp)] at hfit
    rw [entryReads_tooLarge hfit]
    exact sized_quiet hd
  | noMatch hd hfit ht hp =>
    rw [hd.eq (grread_honest dev rgp)] at hfit
    rw [entryReads_pguid hfit (compares_false ht)]
    exact ((sized_quiet hd).trans (compares_quiet ht)).trans (compares_quiet hp)

theorem chosen_quiet
    (h : Chosen (dev.grread rgp) maxLbas tguid pguid dev.disk.header p s d s') :
    Quiet dev (entryReads dev.disk maxLbas tguid pguid p) s s' := by
  cases h with
  | tguid hd hfit ht =>
    rw [hd.eq (grread_honest dev rgp)] at hfit
    rw [entryReads_tguid hfit ((ht.iff (grread_honest dev rgp)).1 rfl)]
    exact (sized_quiet hd).trans (compares_quiet ht)
  | pguid hd hfit ht hp =>
    rw [hd.eq (grread_honest dev rgp)] at hfit
    rw [entryReads_pguid hfit (compares_false ht)]
    exact ((sized_quiet hd).trans (compares_quiet ht)).trans (compares_quiet hp)

theorem one_le_entryReads (disk : Disk) : 1 ≤ entryReads disk maxLbas tguid pguid p := by
  unfold entryReads
  split_ifs <;> omega

theorem entryFails_within
    (h : EntryFails (dev.grread rgp) maxLbas tguid pguid dev.disk.header p s out c out' s') :
    FailsWithin dev (entryReads dev.disk maxLbas tguid pguid p) s := by
  cases h with
  | dim hd => exact (fails_within hd).mono (one_le_entryReads dev.disk)
  | tguid hd hfit ht =>
    rw [hd.eq (grread_honest dev rgp)] at hfit
    refine ((compareFails_within ht).after (sized_quiet hd)).mono ?_
    rw [entryReads, if_pos hfit]
    exact Nat.le_add_right _ _
  | pguid hd hfit ht hp =>
    rw [hd.eq (grread_honest dev rgp)] at hfit
    rw [entryReads_pguid hfit (compares_false ht)]
    exact (compareFails_within hp).after ((sized_quiet hd).trans (compares_quiet ht))

/-- Passing the first entries takes as many calls as they account for in `tableReads`. -/
theorem passed_quiet {ds : List PartFields}
    (h : Passed (dev.grread rgp) maxLbas tguid pguid dev.disk.header ds s s') :
    ∃ q, Quiet dev q s s' ∧ ∀ n, tableReads dev.disk maxLbas tguid pguid (ds.length + n) 0 =
      q + tableReads dev.disk maxLbas tguid pguid n ds.length := by
  induction h with
  | nil => exact ⟨0, .refl _, fun n => by rw [List.length_nil, Nat.zero_add, Nat.zero_add]⟩
  | @snoc ds d _ _ _ _ hskip ih =>
    obtain ⟨q, hq, hcount⟩ := ih
    obtain ⟨-, hnot⟩ := hskip.not_matches (grread_honest dev rgp)
    refine ⟨_, hq.trans (skipped_quiet hskip), fun n => ?_⟩
    rw [List.length_append, List.length_singleton, Nat.add_assoc, hcount, Nat.add_comm 1 n,
      tableReads, if_neg hnot, Nat.add_assoc]

/-- A search that returns 0 has made all of its calls, and a search that fails does so at one of
them. -/
theorem findRun_calls
    (h : FindRun (dev.grread rgp) maxLbas tguid pguid s out c out' s') :
    (c = 0 ∧ Quiet dev (searchReads dev.disk maxLbas tguid pguid) s s' ∧
      Reports dev.disk maxLbas tguid pguid out out') ∨
    (c ≠ 0 ∧ FailsWithin dev (searchReads dev.disk maxLbas tguid pguid) s) := by
  have hon := grread_honest dev rgp
  cases h with
  | headerFails hhdr =>
    exact Or.inr ⟨hhdr.1, (fails_within hhdr).mono (Nat.le_add_right _ _)⟩
  | @found hf ds d s₁ s₂ s₃ hhdr hlen hp hc =>
    obtain rfl := hhdr.eq hon
    obtain ⟨q, hq, hcount⟩ := passed_quiet hp
    obtain ⟨n, hn⟩ : ∃ n, ds.length + (n + 1) = dev.disk.count :=
      ⟨dev.disk.count - ds.length - 1, by unfold Disk.count at *; omega⟩
    refine Or.inl ⟨rfl, ?_, reports_of_found hon hlen hp hc⟩
    have hreads : searchReads dev.disk maxLbas tguid pguid =
        1 + (q + entryReads dev.disk maxLbas tguid pguid ds.length) := by
      rw [searchReads, ← hn, hcount, tableReads, if_pos (hc.matches hon).2, Nat.add_zero]
    rw [hreads]
    exact (header_quiet hhdr).trans (hq.trans (chosen_quiet hc))
  | @notFound hf ds s₁ s₂ hhdr hlen hp =>
    obtain rfl := hhdr.eq hon
    obtain ⟨q, hq, hcount⟩ := passed_quiet hp
    refine Or.inl ⟨rfl, ?_, reports_of_notFound hon hlen hp⟩
    have hreads : searchReads dev.disk maxLbas tguid pguid = 1 + q := by
      rw [searchReads, Disk.count, ← hlen, ← Nat.add_zero ds.length, hcount, tableReads]
      rfl
    rw [hreads]
    exact (header_quiet hhdr).trans hq
  | @entryFails hf ds s₁ s₂ s₃ c out' hhdr hlen hp hfail =>
    obtain rfl := hhdr.eq hon
    obtain ⟨q, hq, hcount⟩ := passed_quiet hp
    obtain ⟨n, hn⟩ : ∃ n, ds.length + (n + 1) = dev.disk.count :=
      ⟨dev.disk.count - ds.length - 1, by unfold Disk.count at *; omega⟩
    refine Or.inr ⟨hfail.nonzero, ?_⟩
    refine ((entryFails_within hfail).after ((header_quiet hhdr).trans hq)).mono ?_
    rw [searchReads, ← hn, hcount, tableReads]
    omega

end Search

/-! ## Loading a partition -/

section Load

variable (dev : Device) (rgp : U64) (guid : Guid) (dst maxLbas : U64)

/-- The length of a copy. -/
def copyLen (d : PartFields) : U64 := 0x200 * (d.lbaEnd - d.lbaBegin + 1)

/-- The calls of the search for `guid`. -/
def findReads : ℕ := searchReads dev.disk maxLbas (some guid) none

/-- `M` is the first partition of type `guid` with at most `max_lbas` blocks. -/
def First (M : ℕ) : Prop :=
  IsLeast {k | k < dev.disk.count ∧ dev.disk.Matches maxLbas (some guid) none k} M

/-- What the call that copies partition `M` is answered, if the search starts in `s`. -/
def copyAnswer (s : State) (M : ℕ) : Reply :=
  dev.answer (s.next + findReads dev guid maxLbas) (0x200 * (dev.disk.part M).lbaBegin)

/-- No call of the search has failed, and partition `M` has been copied, successfully or not. -/
structure Loaded (s s' : State) (M : ℕ) : Prop where
  first : First dev guid maxLbas M
  spared : ∀ i < findReads dev guid maxLbas, dev.fails (s.next + i) = none
  mem : s'.mem =
    s.mem.write dst (copyLen (dev.disk.part M)).toNat (copyAnswer dev guid maxLbas s M).data
  copies : s'.copies = s.copies ++ [⟨.ext dst, 0x200 * (dev.disk.part M).lbaBegin,
    copyLen (dev.disk.part M), (copyAnswer dev guid maxLbas s M).ret⟩]
  next : s'.next = s.next + findReads dev guid maxLbas + 1

variable {dev rgp guid dst maxLbas}

/-- If there is an eligible partition, there is a first one. -/
theorem exists_first {k : ℕ} (hk : k < dev.disk.count)
    (hm : dev.disk.Matches maxLbas (some guid) none k) : ∃ M, First dev guid maxLbas M := by
  have hex : ∃ k, k < dev.disk.count ∧ dev.disk.Matches maxLbas (some guid) none k := ⟨k, hk, hm⟩
  exact ⟨Nat.find hex, Nat.find_spec hex, fun j hj => Nat.find_min' hex hj⟩

section Outcomes

variable {read : GptRead State} {s s₁ : State}

theorem loadPartOrSpin_found {M : ℕ} {lbaBegin lbaEnd : U64}
    (h : gptFindPartition read maxLbas (some guid) none ⟨s, ⟨-1, 0, 0⟩⟩ =
      (0, ⟨s₁, ⟨M, lbaBegin, lbaEnd⟩⟩)) :
    loadPartOrSpin read guid dst maxLbas s =
      some (read (.ext dst) (0x200 * lbaBegin) (0x200 * (lbaEnd - lbaBegin + 1)) s₁).2 := by
  unfold loadPartOrSpin
  rw [h]
  have hpos : ¬(M : ℤ) < 0 := by omega
  exact (if_neg (not_not.2 rfl)).trans (if_neg hpos)

theorem loadPartOrSpin_notFound {out : FindOut}
    (h : gptFindPartition read maxLbas (some guid) none ⟨s, ⟨-1, 0, 0⟩⟩ = (0, ⟨s₁, out⟩))
    (hidx : out.partIdx = -1) : loadPartOrSpin read guid dst maxLbas s = none := by
  unfold loadPartOrSpin
  rw [h]
  have hneg : out.partIdx < 0 := by omega
  exact (if_neg (not_not.2 rfl)).trans (if_pos hneg)

theorem loadPartOrSpin_failed {c : CInt} {f : Find State} (hc : c ≠ 0)
    (h : gptFindPartition read maxLbas (some guid) none ⟨s, ⟨-1, 0, 0⟩⟩ = (c, f)) :
    loadPartOrSpin read guid dst maxLbas s = none := by
  unfold loadPartOrSpin
  rw [h]
  exact if_pos hc

end Outcomes

/-- The copy after a search that has found partition `M`. -/
theorem loaded_of_quiet {s s₁ : State} {M : ℕ} (hM : First dev guid maxLbas M)
    (hquiet : Quiet dev (findReads dev guid maxLbas) s s₁) :
    Loaded dev guid dst maxLbas s (dev.grread rgp (.ext dst)
      (0x200 * (dev.disk.part M).lbaBegin) (copyLen (dev.disk.part M)) s₁).2 M := by
  obtain ⟨hmem, hcopies, hnext⟩ := grread_copy dev rgp dst (0x200 * (dev.disk.part M).lbaBegin)
    (copyLen (dev.disk.part M)) s₁
  rw [hquiet.next, hquiet.mem] at hmem
  rw [hquiet.next, hquiet.copies] at hcopies
  rw [hquiet.next] at hnext
  exact ⟨hM, hquiet.spared, hmem, hcopies, hnext⟩

theorem loadPartOrSpin_cases (s : State) :
    (loadPartOrSpin (dev.grread rgp) guid dst maxLbas s = none ∧
      (FailsWithin dev (findReads dev guid maxLbas) s ∨
        ∀ k < dev.disk.count, ¬dev.disk.Matches maxLbas (some guid) none k)) ∨
    ∃ s' M, loadPartOrSpin (dev.grread rgp) guid dst maxLbas s = some s' ∧
      Loaded dev guid dst maxLbas s s' M := by
  obtain ⟨c, out, s₁, hrun⟩ := findRun_total (dev.grread rgp) maxLbas (some guid) none s ⟨-1, 0, 0⟩
  rcases findRun_calls hrun with ⟨rfl, hquiet, hreports⟩ | ⟨hc, hfails⟩
  · by_cases hex : ∃ k < dev.disk.count, dev.disk.Matches maxLbas (some guid) none k
    · obtain ⟨k, hk, hm⟩ := hex
      obtain ⟨M, hM⟩ := exists_first hk hm
      have hfind := hrun.run
      rw [hreports.found M hM] at hfind
      exact Or.inr ⟨_, M, loadPartOrSpin_found hfind, loaded_of_quiet hM hquiet⟩
    · simp only [not_exists, not_and] at hex
      exact Or.inl ⟨loadPartOrSpin_notFound hrun.run (hreports.notFound hex).1, Or.inr hex⟩
  · exact Or.inl ⟨loadPartOrSpin_failed hc hrun.run, Or.inl hfails⟩

end Load

/-! ## Launching -/

section Launch

variable (dev : Device) (scratch : ℕ → BitVec 32)

/-- The first partition of type `guid` with at most `max_lbas` blocks is at `dst`. -/
def Placed (mem : Mem) (guid : Guid) (dst maxLbas : U64) : Prop :=
  ∃ M, First dev guid maxLbas M ∧
    ∀ i < 512 * (((dev.disk.part M).lbaEnd - (dev.disk.part M).lbaBegin).toNat + 1),
      mem (dst + BitVec.ofNat 64 i) = dev.disk.from (0x200 * (dev.disk.part M).lbaBegin) i

/-- Both payloads have been copied without an error, both are in place, and the second copy has
left the first alone. -/
structure Launched (s s' : State) : Prop where
  copies : ∃ c₁ c₂, s'.copies = [c₁, c₂] ∧ c₁.ret = 0 ∧ c₂.ret = 0
  dtb : Placed dev s'.mem bootDtbTypeGuid bootZslDtb 64
  fw : Placed dev s'.mem bootFwTypeGuid bootZslFw 8192
  kept : ∃ s₁, loadPartOrSpin (dev.grread ((scratch 3).setWidth 64)) bootDtbTypeGuid
    bootZslDtb 64 s = some s₁ ∧ ∀ i < 512 * 64,
      s'.mem (bootZslDtb + BitVec.ofNat 64 i) = s₁.mem (bootZslDtb + BitVec.ofNat 64 i)

/-- If both partitions exist and no call of a search fails, then the two copies do not fail. -/
def CopiesSpared : Prop :=
  let n₁ := findReads dev bootDtbTypeGuid 64
  let n₂ := findReads dev bootFwTypeGuid 8192
  (∃ k < dev.disk.count, dev.disk.Matches 64 (some bootDtbTypeGuid) none k) →
  (∃ k < dev.disk.count, dev.disk.Matches 8192 (some bootFwTypeGuid) none k) →
  (∀ i < n₁, dev.fails i = none) → (∀ i < n₂, dev.fails (n₁ + 1 + i) = none) →
  dev.fails n₁ = none ∧ dev.fails (n₁ + 1 + n₂) = none

/-- `main` starts before the first call of the callback. -/
def start (gp : U64) (mem : Mem) : State := ⟨gp, mem, []⟩

variable {dev scratch}

theorem copyLen_toNat {maxLbas : U64} (h : maxLbas.toNat ≤ 2 ^ 32) {d : PartFields}
    (hfit : d.Fits maxLbas) :
    (copyLen d).toNat = 512 * ((d.lbaEnd - d.lbaBegin).toNat + 1) := by
  rw [PartFields.Fits, BitVec.lt_def] at hfit
  unfold copyLen
  rw [BitVec.toNat_mul, BitVec.toNat_add, show (0x200 : U64).toNat = 512 from rfl,
    show (1 : U64).toNat = 1 from rfl]
  omega

/-- A copy that does not fail leaves the partition in place. -/
theorem Loaded.placed {guid : Guid} {dst maxLbas : U64} {s s' : State} {M : ℕ}
    (h : Loaded dev guid dst maxLbas s s' M) (hmax : maxLbas.toNat ≤ 2 ^ 32)
    (hok : dev.fails (s.next + findReads dev guid maxLbas) = none) :
    Placed dev s'.mem guid dst maxLbas := by
  have hfit := h.first.1.2.1
  refine ⟨M, h.first, fun i hi => ?_⟩
  rw [← copyLen_toNat hmax hfit] at hi
  rw [h.mem, Mem.write_read hi (copyLen (dev.disk.part M)).isLt.le, copyAnswer, answer_data hok]

/-- The firmware ends before the device tree starts. -/
theorem Loaded.dtb_kept {s s' : State} {M : ℕ}
    (h : Loaded dev bootFwTypeGuid bootZslFw 8192 s s' M) {i : ℕ} (hi : i < 512 * 64) :
    s'.mem (bootZslDtb + BitVec.ofNat 64 i) = s.mem (bootZslDtb + BitVec.ofNat 64 i) := by
  have hfit := h.first.1.2.1
  rw [h.mem]
  apply Mem.write_frame
  rw [copyLen_toNat (by decide) hfit]
  rw [PartFields.Fits, BitVec.lt_def] at hfit
  have hmax : (8192 : U64).toNat = 8192 := rfl
  have hoff : (bootZslDtb + BitVec.ofNat 64 i - bootZslFw).toNat = 0x800000 + i := by
    rw [BitVec.toNat_sub, BitVec.toNat_add, BitVec.toNat_ofNat,
      show bootZslDtb.toNat = 0x80800000 from rfl, show bootZslFw.toNat = 0x80000000 from rfl]
    omega
  omega

theorem load_of_spared (rgp dst : U64) {guid : Guid} {maxLbas : U64} {s : State}
    (hex : ∃ k < dev.disk.count, dev.disk.Matches maxLbas (some guid) none k)
    (hs : ∀ i < findReads dev guid maxLbas, dev.fails (s.next + i) = none) :
    ∃ s' M, loadPartOrSpin (dev.grread rgp) guid dst maxLbas s = some s' ∧
      Loaded dev guid dst maxLbas s s' M := by
  rcases loadPartOrSpin_cases s with ⟨-, ⟨i, hi, hf⟩ | hnone⟩ | hload
  · exact absurd (hs i hi) hf
  · obtain ⟨k, hk, hm⟩ := hex
    exact absurd hm (hnone k hk)
  · exact hload

theorem loaded_of_load {rgp : U64} {guid : Guid} {dst maxLbas : U64} {s s' : State}
    (h : loadPartOrSpin (dev.grread rgp) guid dst maxLbas s = some s') :
    ∃ M, Loaded dev guid dst maxLbas s s' M := by
  rcases loadPartOrSpin_cases s with ⟨hnone, -⟩ | ⟨t, M, hload, hl⟩
  · rw [hnone] at h
    exact absurd h.symm (Option.some_ne_none s')
  · rw [hload] at h
    obtain rfl := Option.some.inj h
    exact ⟨M, hl⟩

theorem main_eq (h : scratch 0 &&& 1 ≠ 0) (s : State) : main dev.env scratch s =
    (loadPartOrSpin (dev.grread ((scratch 3).setWidth 64)) bootDtbTypeGuid bootZslDtb 64 s).bind
      (loadPartOrSpin (dev.grread ((scratch 3).setWidth 64)) bootFwTypeGuid bootZslFw 8192) :=
  if_pos h

/-- **Main result.** Whatever `main` launches is in place, exactly if the two payload copies do
not fail where everything before them succeeds. -/
theorem main_launches_iff (dev : Device) (scratch : ℕ → BitVec 32) (h : scratch 0 &&& 1 ≠ 0)
    (gp : U64) (mem : Mem) :
    (∀ s', main dev.env scratch (start gp mem) = some s' → Launched dev scratch (start gp mem) s') ↔
      CopiesSpared dev := by
  rw [main_eq h]
  constructor
  · intro hall hdtb hfw hs₁ hs₂
    have hzero : (start gp mem).next = 0 := rfl
    obtain ⟨s₁, M₁, hload₁, h₁⟩ := load_of_spared (s := start gp mem)
      ((scratch 3).setWidth 64) bootZslDtb hdtb fun i hi => by
        rw [hzero, Nat.zero_add]
        exact hs₁ i hi
    have hnext : s₁.next = findReads dev bootDtbTypeGuid 64 + 1 := by
      rw [h₁.next, hzero, Nat.zero_add]
    obtain ⟨s₂, M₂, hload₂, h₂⟩ := load_of_spared (s := s₁) ((scratch 3).setWidth 64) bootZslFw
      hfw fun i hi => by
        rw [hnext]
        exact hs₂ i hi
    obtain ⟨c₁, c₂, hcopies, hc₁, hc₂⟩ := (hall s₂ (by rw [hload₁]; exact hload₂)).copies
    rw [h₂.copies, h₁.copies] at hcopies
    obtain ⟨rfl, hrest⟩ := List.cons.inj hcopies
    obtain ⟨rfl, -⟩ := List.cons.inj hrest
    have hf₁ := (answer_ret _).1 hc₁
    have hf₂ := (answer_ret _).1 hc₂
    rw [hzero, Nat.zero_add] at hf₁
    rw [hnext] at hf₂
    exact ⟨hf₁, hf₂⟩
  · intro hspared s₂ hmain
    obtain ⟨s₁, hload₁, hload₂⟩ := Option.bind_eq_some_iff.1 hmain
    obtain ⟨M₁, h₁⟩ := loaded_of_load hload₁
    obtain ⟨M₂, h₂⟩ := loaded_of_load hload₂
    have hzero : (start gp mem).next = 0 := rfl
    have hnext : s₁.next = findReads dev bootDtbTypeGuid 64 + 1 := by
      rw [h₁.next, hzero, Nat.zero_add]
    have hs₁ := h₁.spared
    have hs₂ := h₂.spared
    rw [hnext] at hs₂
    simp only [hzero, Nat.zero_add] at hs₁
    obtain ⟨hok₁, hok₂⟩ := hspared ⟨M₁, h₁.first.1⟩ ⟨M₂, h₂.first.1⟩ hs₁ hs₂
    have hp₁ := h₁.placed (by decide) (by rw [hzero, Nat.zero_add]; exact hok₁)
    have hp₂ := h₂.placed (by decide) (by rw [hnext]; exact hok₂)
    have hcopies := h₂.copies
    rw [h₁.copies] at hcopies
    refine ⟨⟨_, _, hcopies, ?_, ?_⟩, ?_, hp₂, s₁, hload₁, fun i hi => h₂.dtb_kept hi⟩
    · exact (answer_ret _).2 (by rw [hzero, Nat.zero_add]; exact hok₁)
    · exact (answer_ret _).2 (by rw [hnext]; exact hok₂)
    · obtain ⟨M, hM, hbytes⟩ := hp₁
      refine ⟨M, hM, fun i hi => ?_⟩
      have hfit := hM.1.2.1
      rw [PartFields.Fits, BitVec.lt_def, show (64 : U64).toNat = 64 from rfl] at hfit
      rw [h₂.dtb_kept (by omega), hbytes i hi]

/-- A disk of two partitions of one block: a device tree at block 34, firmware at block 35. -/
def payloadDisk : Disk := fun a =>
  let field (start len x : ℕ) : Option Byte :=
    if start ≤ a.toNat ∧ a.toNat < start + len then some (byteOf x (a.toNat - start)) else none
  (field 0x248 8 2 <|> field 0x250 4 2 <|> field 0x254 4 128 <|>
    field 0x400 8 0x42DE2AEFBA442F61 <|> field 0x408 8 0x9DCB3A5DD7E43392 <|>
    field 0x420 8 34 <|> field 0x428 8 34 <|>
    field 0x480 8 0x4B0D3F5B99EC86DA <|> field 0x488 8 0x59F8A5CFBAC44B8F <|>
    field 0x4A0 8 35 <|> field 0x4A8 8 35).getD 0

/-- The payload disk on a device that fails at call `n` only. -/
def failsAt (n : ℕ) : Device :=
  ⟨payloadDisk, fun i => if i = n then some ⟨1, by decide, fun _ => 0⟩ else none⟩

/-- The scratch registers of the loader. -/
def zslScratch (i : ℕ) : BitVec 32 := if i = 0 then 0x02001001 else if i = 3 then 0x10000800 else 0

theorem main_launches_iff_never : ∃ s', main (Device.env ⟨payloadDisk, fun _ => none⟩) zslScratch
    (start 0x10000800 fun _ => 0) = some s' ∧
      Launched ⟨payloadDisk, fun _ => none⟩ zslScratch (start 0x10000800 fun _ => 0) s' := by
  have hmain : (main (Device.env ⟨payloadDisk, fun _ => none⟩) zslScratch
      (start 0x10000800 fun _ => 0)).isSome = true := by decide +kernel
  obtain ⟨s', hs'⟩ := Option.isSome_iff_exists.1 hmain
  exact ⟨s', hs',
    (main_launches_iff _ zslScratch (by decide) _ _).2 (fun _ _ _ _ => ⟨rfl, rfl⟩) s' hs'⟩

/-- When the copy of the firmware, call 9, fails, the loader calls it nevertheless. -/
theorem main_launches_failed_copy : ∃ s', main (failsAt 9).env zslScratch
    (start 0x10000800 fun _ => 0) = some s' ∧
      ¬Launched (failsAt 9) zslScratch (start 0x10000800 fun _ => 0) s' := by
  have hcopies : (main (failsAt 9).env zslScratch (start 0x10000800 fun _ => 0)).map
      (fun s => s.copies.map Call.ret) = some [0, 1] := by decide +kernel
  obtain ⟨s', hmain, hret⟩ := Option.map_eq_some_iff.1 hcopies
  refine ⟨s', hmain, fun hl => ?_⟩
  obtain ⟨c₁, c₂, hc, -, hc₂⟩ := hl.copies
  rw [hc] at hret
  have := (List.cons.inj (List.cons.inj hret).2).1
  rw [hc₂] at this
  exact absurd this (by decide)

end Launch

end Cheshire.Zsl
