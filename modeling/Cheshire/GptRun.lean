import Cheshire.Gpt

/-!
# What a partition search can do

`FindRun` describes the runs of `gpt_find_partition` by the reads they make and the answers they
get: a read of the header, then for each entry a read of its size fields and, if it fits, one of
each GUID that is asked for, until an entry is chosen, the table ends, or a read fails.

**Theorem (`FindRun.run`, `findRun_total`).** Every such description is the run of the function,
and from every state there is one. What follows about the function, for any callback, is by cases
on its run.
-/

namespace Cheshire.Gpt

open Lib

variable {σ : Type}

/-! ## Single reads -/

section Reads

variable (read : GptRead σ)

/-- The read succeeds and leaves `data`. -/
def Reads (buf : Buf) (addr len : U64) (s : σ) (data : ℕ → Byte) (s' : σ) : Prop :=
  read buf addr len s = (⟨0, data⟩, s')

/-- The read fails with code `c`. -/
def Fails (buf : Buf) (addr len : U64) (s : σ) (c : CInt) (s' : σ) : Prop :=
  c ≠ 0 ∧ ∃ data, read buf addr len s = (⟨c, data⟩, s')

theorem reads_or_fails (buf : Buf) (addr len : U64) (s : σ) :
    (∃ data s', Reads read buf addr len s data s') ∨ ∃ c s', Fails read buf addr len s c s' := by
  rcases h : read buf addr len s with ⟨⟨c, data⟩, s'⟩
  by_cases hc : c = 0
  · subst hc
    exact Or.inl ⟨data, s', h⟩
  · exact Or.inr ⟨c, s', hc, data, h⟩

variable {read} {buf : Buf} {addr len : U64} {s s' : σ} {out : FindOut} {c : CInt}
  {data : ℕ → Byte}

theorem Reads.check (h : Reads read buf addr len s data s') :
    checkRead read buf addr len ⟨s, out⟩ = .ok data ⟨s', out⟩ := by
  unfold checkRead
  rw [show read buf addr len s = _ from h]
  rfl

theorem Fails.check (h : Fails read buf addr len s c s') :
    checkRead read buf addr len ⟨s, out⟩ = .error c ⟨s', out⟩ := by
  obtain ⟨hc, data, h⟩ := h
  unfold checkRead
  rw [h]
  exact if_pos hc

end Reads

/-! ## One entry -/

section Entry

variable (read : GptRead σ) (maxLbas : U64) (tguid pguid : Option Guid) (hf : HdrFields) (p : ℕ)

/-- Comparing the GUID at `addr` with the one passed, if any, says `b`. -/
inductive Compares : Option Guid → U64 → σ → Bool → σ → Prop
  | null {addr : U64} {s : σ} : Compares none addr s false s
  | read {g : Guid} {addr : U64} {s s' : σ} {data : ℕ → Byte} :
      Reads read .guid addr 16 s data s' →
      Compares (some g) addr s (decide (guidAt data = g)) s'

/-- The read of the GUID at `addr` fails. -/
inductive CompareFails : Option Guid → U64 → σ → CInt → σ → Prop
  | read {g : Guid} {addr : U64} {s s' : σ} {c : CInt} :
      Fails read .guid addr 16 s c s' → CompareFails (some g) addr s c s'

/-- The size fields of entry `p` are `d`. -/
def Sized (s : σ) (d : PartFields) (s' : σ) : Prop :=
  ∃ data, Reads read .dim (peOffs hf p + 0x20) 16 s data s' ∧ d = partFields data

def PartFields.Fits (d : PartFields) : Prop := d.lbaEnd - d.lbaBegin < maxLbas

/-- Entry `p` is read, and the search goes on. -/
inductive Skipped : σ → PartFields → σ → Prop
  | tooLarge {s s₁ : σ} {d : PartFields} :
      Sized read hf p s d s₁ → ¬d.Fits maxLbas → Skipped s d s₁
  | noMatch {s s₁ s₂ s₃ : σ} {d : PartFields} :
      Sized read hf p s d s₁ → d.Fits maxLbas →
      Compares read tguid (peOffs hf p) s₁ false s₂ →
      Compares read pguid (peOffs hf p + 0x10) s₂ false s₃ → Skipped s d s₃

/-- Entry `p` fits and has one of the GUIDs. -/
inductive Chosen : σ → PartFields → σ → Prop
  | tguid {s s₁ s₂ : σ} {d : PartFields} :
      Sized read hf p s d s₁ → d.Fits maxLbas →
      Compares read tguid (peOffs hf p) s₁ true s₂ → Chosen s d s₂
  | pguid {s s₁ s₂ s₃ : σ} {d : PartFields} :
      Sized read hf p s d s₁ → d.Fits maxLbas →
      Compares read tguid (peOffs hf p) s₁ false s₂ →
      Compares read pguid (peOffs hf p + 0x10) s₂ true s₃ → Chosen s d s₃

/-- The outputs once the size fields of entry `p` are known. -/
def recorded (d : PartFields) (out : FindOut) : FindOut :=
  if p = 0 then
    { out with
      lbaBegin := (firstChunk maxLbas d).lbaBegin
      lbaEnd := (firstChunk maxLbas d).lbaEnd }
  else out

/-- A read of entry `p` fails. -/
inductive EntryFails : σ → FindOut → CInt → FindOut → σ → Prop
  | dim {s s₁ : σ} {out : FindOut} {c : CInt} :
      Fails read .dim (peOffs hf p + 0x20) 16 s c s₁ → EntryFails s out c out s₁
  | tguid {s s₁ s₂ : σ} {d : PartFields} {out : FindOut} {c : CInt} :
      Sized read hf p s d s₁ → d.Fits maxLbas → CompareFails read tguid (peOffs hf p) s₁ c s₂ →
      EntryFails s out c (recorded maxLbas p d out) s₂
  | pguid {s s₁ s₂ s₃ : σ} {d : PartFields} {out : FindOut} {c : CInt} :
      Sized read hf p s d s₁ → d.Fits maxLbas →
      Compares read tguid (peOffs hf p) s₁ false s₂ →
      CompareFails read pguid (peOffs hf p + 0x10) s₂ c s₃ →
      EntryFails s out c (recorded maxLbas p d out) s₃

variable {read maxLbas tguid pguid hf p}

theorem compares_or_fails (read : GptRead σ) (g : Option Guid) (addr : U64) (s : σ) :
    (∃ b s', Compares read g addr s b s') ∨ ∃ c s', CompareFails read g addr s c s' := by
  cases g with
  | none => exact Or.inl ⟨false, s, .null⟩
  | some g =>
    rcases reads_or_fails read .guid addr 16 s with ⟨data, s', h⟩ | ⟨c, s', h⟩
    · exact Or.inl ⟨_, s', .read h⟩
    · exact Or.inr ⟨c, s', .read h⟩

/-- An entry is skipped or chosen, or one of its reads fails. -/
theorem entry_total (read : GptRead σ) (maxLbas : U64) (tguid pguid : Option Guid)
    (hf : HdrFields) (p : ℕ) (s : σ) (out : FindOut) :
    (∃ d s', Skipped read maxLbas tguid pguid hf p s d s') ∨
      (∃ d s', Chosen read maxLbas tguid pguid hf p s d s') ∨
      ∃ c out' s', EntryFails read maxLbas tguid pguid hf p s out c out' s' := by
  rcases reads_or_fails read .dim (peOffs hf p + 0x20) 16 s with ⟨data, s₁, hdim⟩ | ⟨c, s₁, hdim⟩
  · have hd : Sized read hf p s (partFields data) s₁ := ⟨data, hdim, rfl⟩
    by_cases hfit : (partFields data).Fits maxLbas
    · rcases compares_or_fails read tguid (peOffs hf p) s₁ with
        ⟨b, s₂, ht⟩ | ⟨c, s₂, ht⟩
      · cases b with
        | true => exact Or.inr (Or.inl ⟨_, _, .tguid hd hfit ht⟩)
        | false =>
          rcases compares_or_fails read pguid (peOffs hf p + 0x10) s₂ with
            ⟨b, s₃, hp⟩ | ⟨c, s₃, hp⟩
          · cases b with
            | true => exact Or.inr (Or.inl ⟨_, _, .pguid hd hfit ht hp⟩)
            | false => exact Or.inl ⟨_, _, .noMatch hd hfit ht hp⟩
          · exact Or.inr (Or.inr ⟨_, _, _, .pguid hd hfit ht hp⟩)
      · exact Or.inr (Or.inr ⟨_, _, _, .tguid hd hfit ht⟩)
    · exact Or.inl ⟨_, _, .tooLarge hd hfit⟩
  · exact Or.inr (Or.inr ⟨_, _, _, .dim hdim⟩)

variable {s s' : σ} {out out' : FindOut} {d : PartFields} {c : CInt}

theorem Compares.run {g : Option Guid} {addr : U64} {b : Bool}
    (h : Compares read g addr s b s') :
    matchGuid read g addr ⟨s, out⟩ = .ok b ⟨s', out⟩ := by
  cases h with
  | null => rfl
  | @read g _ _ _ data h =>
    refine (Cmd.bind_ok h.check).trans ?_
    have heq : ((guidAt data).1 == g.1 && (guidAt data).2 == g.2) = decide (guidAt data = g) := by
      rw [Bool.eq_iff_iff]
      simp [Prod.ext_iff]
    rw [← heq]
    rfl

theorem CompareFails.run {g : Option Guid} {addr : U64}
    (h : CompareFails read g addr s c s') :
    matchGuid read g addr ⟨s, out⟩ = .error c ⟨s', out⟩ := by
  cases h with
  | read h => exact Cmd.bind_error h.check

theorem recordFirst_run :
    (recordFirst maxLbas p d : Cmd CInt (Find σ) Unit) ⟨s, out⟩ =
      .ok () ⟨s, recorded maxLbas p d out⟩ := by
  unfold recordFirst recorded
  split_ifs <;> rfl

theorem EntryFails.nonzero (h : EntryFails read maxLbas tguid pguid hf p s out c out' s') :
    c ≠ 0 := by
  cases h with
  | dim hd => exact hd.1
  | tguid _ _ ht => cases ht with | read hread => exact hread.1
  | pguid _ _ _ hp => cases hp with | read hread => exact hread.1

/-- The body of the loop once the size fields of the entry are read. -/
def entryRest (read : GptRead σ) (maxLbas : U64) (tguid pguid : Option Guid) (hf : HdrFields)
    (p : ℕ) (d : PartFields) : Cmd CInt (Find σ) (PartFields × Bool) := do
  if maxLbas ≤ d.lbaEnd - d.lbaBegin then
    return (d, false)
  if ← matchGuid read tguid (peOffs hf p) then
    return (d, true)
  if ← matchGuid read pguid (peOffs hf p + 0x10) then
    return (d, true)
  return (d, false)

theorem checkEntry_run (h : Sized read hf p s d s') :
    checkEntry read maxLbas tguid pguid hf p ⟨s, out⟩ =
      entryRest read maxLbas tguid pguid hf p d ⟨s', recorded maxLbas p d out⟩ := by
  obtain ⟨data, hread, rfl⟩ := h
  refine (Cmd.bind_ok hread.check).trans ?_
  exact Cmd.bind_ok recordFirst_run

theorem entryRest_of_fits (h : d.Fits maxLbas) :
    entryRest read maxLbas tguid pguid hf p d = (do
      if ← matchGuid read tguid (peOffs hf p) then
        return (d, true)
      if ← matchGuid read pguid (peOffs hf p + 0x10) then
        return (d, true)
      return (d, false)) := by
  unfold entryRest
  rw [if_neg (BitVec.not_le.2 h)]

theorem Skipped.run (h : Skipped read maxLbas tguid pguid hf p s d s') :
    checkEntry read maxLbas tguid pguid hf p ⟨s, out⟩ =
      .ok (d, false) ⟨s', recorded maxLbas p d out⟩ := by
  cases h with
  | tooLarge hd hfit =>
    rw [checkEntry_run hd, entryRest, if_pos (BitVec.not_lt.1 hfit)]
    rfl
  | noMatch hd hfit ht hp =>
    rw [checkEntry_run hd, entryRest_of_fits hfit, Cmd.bind_ok ht.run]
    exact Cmd.bind_ok hp.run

theorem Chosen.run (h : Chosen read maxLbas tguid pguid hf p s d s') :
    checkEntry read maxLbas tguid pguid hf p ⟨s, out⟩ =
      .ok (d, true) ⟨s', recorded maxLbas p d out⟩ := by
  cases h with
  | tguid hd hfit ht =>
    rw [checkEntry_run hd, entryRest_of_fits hfit]
    exact Cmd.bind_ok ht.run
  | pguid hd hfit ht hp =>
    rw [checkEntry_run hd, entryRest_of_fits hfit, Cmd.bind_ok ht.run]
    exact Cmd.bind_ok hp.run

theorem EntryFails.run (h : EntryFails read maxLbas tguid pguid hf p s out c out' s') :
    checkEntry read maxLbas tguid pguid hf p ⟨s, out⟩ = .error c ⟨s', out'⟩ := by
  cases h with
  | dim hd => exact Cmd.bind_error hd.check
  | tguid hd hfit ht =>
    rw [checkEntry_run hd, entryRest_of_fits hfit]
    exact Cmd.bind_error ht.run
  | pguid hd hfit ht hp =>
    rw [checkEntry_run hd, entryRest_of_fits hfit, Cmd.bind_ok ht.run]
    exact Cmd.bind_error hp.run

end Entry

/-! ## The loop -/

section Loop

variable (read : GptRead σ) (maxLbas : U64) (tguid pguid : Option Guid) (hf : HdrFields)

/-- The first entries of the table, with size fields `ds`, are read and skipped. -/
inductive Passed : List PartFields → σ → σ → Prop
  | nil {s : σ} : Passed [] s s
  | snoc {ds : List PartFields} {d : PartFields} {s s₁ s₂ : σ} :
      Passed ds s s₁ → Skipped read maxLbas tguid pguid hf ds.length s₁ d s₂ →
      Passed (ds ++ [d]) s s₂

/-- The outputs once the size fields of the first entries are known. -/
def recordedAll (ds : List PartFields) (out : FindOut) : FindOut :=
  match ds.head? with
  | none => out
  | some d => recorded maxLbas 0 d out

variable {read maxLbas tguid pguid hf}
variable {s s' : σ} {out : FindOut}

theorem recordedAll_snoc (ds : List PartFields) (d : PartFields) (out : FindOut) :
    recordedAll maxLbas (ds ++ [d]) out =
      recorded maxLbas ds.length d (recordedAll maxLbas ds out) := by
  cases ds <;> rfl

theorem recordedAll_head (maxLbas : U64) (out : FindOut) {ds : List PartFields} {d : PartFields}
    (h : ds.head? = some d) :
    (recordedAll maxLbas ds out).lbaBegin = d.lbaBegin ∧
      (recordedAll maxLbas ds out).lbaEnd = minU64 d.lbaEnd (d.lbaBegin + maxLbas - 1) := by
  rw [recordedAll, h]
  exact ⟨rfl, rfl⟩

/-- After passing `ds`, the loop is where it is. -/
theorem Passed.run {ds : List PartFields} (h : Passed read maxLbas tguid pguid hf ds s s')
    (n : ℕ) (dim : PartFields) : ∃ dim',
    searchLoop read maxLbas tguid pguid hf (ds.length + n) 0 dim ⟨s, out⟩ =
      searchLoop read maxLbas tguid pguid hf n ds.length dim' ⟨s', recordedAll maxLbas ds out⟩ := by
  induction h generalizing n with
  | nil => exact ⟨dim, by rw [List.length_nil, Nat.zero_add]; rfl⟩
  | @snoc ds d _ s₁ _ _ hskip ih =>
    obtain ⟨dim', hrun⟩ := ih (n + 1)
    refine ⟨d, ?_⟩
    rw [List.length_append, List.length_singleton, Nat.add_right_comm, Nat.add_assoc, hrun,
      searchLoop, Cmd.bind_ok hskip.run, recordedAll_snoc]
    rfl

/-- With `n` entries left, the search passes them all, chooses one of them, or fails at one. -/
theorem search_total (n : ℕ) {ds : List PartFields}
    (h : Passed read maxLbas tguid pguid hf ds s s') (out : FindOut) :
    (∃ ds' s₁, ds'.length = ds.length + n ∧ Passed read maxLbas tguid pguid hf ds' s s₁) ∨
      (∃ ds' d s₁ s₂, ds'.length < ds.length + n ∧ Passed read maxLbas tguid pguid hf ds' s s₁ ∧
        Chosen read maxLbas tguid pguid hf ds'.length s₁ d s₂) ∨
      ∃ ds' c out' s₁ s₂, ds'.length < ds.length + n ∧
        Passed read maxLbas tguid pguid hf ds' s s₁ ∧
        EntryFails read maxLbas tguid pguid hf ds'.length s₁ (recordedAll maxLbas ds' out) c
          out' s₂ := by
  induction n generalizing ds s' with
  | zero => exact Or.inl ⟨ds, s', rfl, h⟩
  | succ n ih =>
    have hlen (d : PartFields) : (ds ++ [d]).length + n = ds.length + (n + 1) := by
      rw [List.length_append, List.length_singleton, Nat.add_right_comm, Nat.add_assoc]
    rcases entry_total read maxLbas tguid pguid hf ds.length s' (recordedAll maxLbas ds out) with
      ⟨d, s₁, hskip⟩ | ⟨d, s₁, hchosen⟩ | ⟨c, out', s₁, hfail⟩
    · have := ih (h.snoc hskip)
      rwa [hlen] at this
    · exact Or.inr (Or.inl ⟨ds, d, s', s₁, by omega, h, hchosen⟩)
    · exact Or.inr (Or.inr ⟨ds, c, out', s', s₁, by omega, h, hfail⟩)

end Loop

/-! ## The search -/

section Search

variable (read : GptRead σ) (maxLbas : U64) (tguid pguid : Option Guid)

/-- The fields of the header are `hf`. -/
def Header (s : σ) (hf : HdrFields) (s' : σ) : Prop :=
  ∃ data, Reads read .hf (0x200 + 0x48) 16 s data s' ∧ hf = hdrFields data

/-- The runs of `gpt_find_partition`: from state and outputs to return value, outputs, state. -/
inductive FindRun (s : σ) (out : FindOut) : CInt → FindOut → σ → Prop
  | headerFails {c : CInt} {s₁ : σ} :
      Fails read .hf (0x200 + 0x48) 16 s c s₁ → FindRun s out c out s₁
  | found {hf : HdrFields} {ds : List PartFields} {d : PartFields} {s₁ s₂ s₃ : σ} :
      Header read s hf s₁ → ds.length < hf.count.toNat →
      Passed read maxLbas tguid pguid hf ds s₁ s₂ →
      Chosen read maxLbas tguid pguid hf ds.length s₂ d s₃ →
      FindRun s out 0 ⟨ds.length, d.lbaBegin, d.lbaEnd⟩ s₃
  | notFound {hf : HdrFields} {ds : List PartFields} {s₁ s₂ : σ} :
      Header read s hf s₁ → ds.length = hf.count.toNat →
      Passed read maxLbas tguid pguid hf ds s₁ s₂ →
      FindRun s out 0 { recordedAll maxLbas ds out with partIdx := -1 } s₂
  | entryFails {hf : HdrFields} {ds : List PartFields} {s₁ s₂ s₃ : σ} {c : CInt}
      {out' : FindOut} :
      Header read s hf s₁ → ds.length < hf.count.toNat →
      Passed read maxLbas tguid pguid hf ds s₁ s₂ →
      EntryFails read maxLbas tguid pguid hf ds.length s₂ (recordedAll maxLbas ds out) c out' s₃ →
      FindRun s out c out' s₃

variable {read maxLbas tguid pguid} {s s' : σ} {out out' : FindOut} {c : CInt}

theorem findRun_total (read : GptRead σ) (maxLbas : U64) (tguid pguid : Option Guid) (s : σ)
    (out : FindOut) :
    ∃ c out' s', FindRun read maxLbas tguid pguid s out c out' s' := by
  rcases reads_or_fails read .hf (0x200 + 0x48) 16 s with ⟨data, s₁, hhdr⟩ | ⟨c, s₁, hhdr⟩
  · have hh : Header read s (hdrFields data) s₁ := ⟨data, hhdr, rfl⟩
    have hnil : Passed read maxLbas tguid pguid (hdrFields data) [] s₁ s₁ := .nil
    have hsearch := search_total (hdrFields data).count.toNat hnil out
    rw [List.length_nil, Nat.zero_add] at hsearch
    rcases hsearch with ⟨ds, s₂, hlen, hp⟩ | ⟨ds, d, s₂, s₃, hlen, hp, hc⟩ |
      ⟨ds, c, out', s₂, s₃, hlen, hp, hfail⟩
    · exact ⟨_, _, _, .notFound hh hlen hp⟩
    · exact ⟨_, _, _, .found hh hlen hp hc⟩
    · exact ⟨_, _, _, .entryFails hh hlen hp hfail⟩
  · exact ⟨_, _, _, .headerFails hhdr⟩

/-- The search loop and the code after it. -/
def findRest (read : GptRead σ) (maxLbas : U64) (tguid pguid : Option Guid) (hf : HdrFields) :
    Cmd CInt (Find σ) Unit := do
  let (p, dim) ← searchLoop read maxLbas tguid pguid hf hf.count.toNat 0 ⟨0, 0⟩
  modify fun s => { s with out := { s.out with partIdx := -1 } }
  if p ≠ hf.count.toNat then
    modify fun s => { s with out := ⟨p, dim.lbaBegin, dim.lbaEnd⟩ }

theorem Header.run {hf : HdrFields} (h : Header read s hf s') :
    findBody read maxLbas tguid pguid ⟨s, out⟩ =
      findRest read maxLbas tguid pguid hf ⟨s', out⟩ := by
  obtain ⟨data, hread, rfl⟩ := h
  exact Cmd.bind_ok hread.check

/-- After passing `ds` the search is at entry `ds.length`, with `n` entries to go. -/
theorem Passed.findRest_run {hf : HdrFields} {ds : List PartFields}
    (h : Passed read maxLbas tguid pguid hf ds s s') {n : ℕ}
    (hn : ds.length + n = hf.count.toNat) (out : FindOut) :
    ∃ dim, searchLoop read maxLbas tguid pguid hf hf.count.toNat 0 ⟨0, 0⟩ ⟨s, out⟩ =
      searchLoop read maxLbas tguid pguid hf n ds.length dim ⟨s', recordedAll maxLbas ds out⟩ := by
  rw [← hn]
  exact h.run n ⟨0, 0⟩

theorem FindRun.run (h : FindRun read maxLbas tguid pguid s out c out' s') :
    gptFindPartition read maxLbas tguid pguid ⟨s, out⟩ = (c, ⟨s', out'⟩) := by
  unfold gptFindPartition
  cases h with
  | headerFails hhdr =>
    rw [show findBody read maxLbas tguid pguid ⟨s, out⟩ = _ from Cmd.bind_error hhdr.check]
  | @found hf ds d s₁ s₂ s₃ hhdr hlen hp hc =>
    obtain ⟨n, hn⟩ : ∃ n, ds.length + (n + 1) = hf.count.toNat :=
      ⟨hf.count.toNat - ds.length - 1, by omega⟩
    obtain ⟨dim, hloop⟩ := hp.findRest_run hn out
    rw [searchLoop, Cmd.bind_ok hc.run] at hloop
    have hne : ds.length ≠ hf.count.toNat := by omega
    rw [hhdr.run, findRest, Cmd.bind_ok hloop]
    dsimp only
    rw [if_pos hne]
    rfl
  | @notFound hf ds s₁ s₂ hhdr hlen hp =>
    obtain ⟨dim, hloop⟩ := hp.findRest_run (n := 0) hlen out
    rw [hhdr.run, findRest, Cmd.bind_ok hloop]
    dsimp only
    rw [if_neg (not_not.2 hlen)]
    rfl
  | @entryFails hf ds s₁ s₂ s₃ c out' hhdr hlen hp hfail =>
    obtain ⟨n, hn⟩ : ∃ n, ds.length + (n + 1) = hf.count.toNat :=
      ⟨hf.count.toNat - ds.length - 1, by omega⟩
    obtain ⟨dim, hloop⟩ := hp.findRest_run hn out
    rw [searchLoop, Cmd.bind_error hfail.run] at hloop
    rw [hhdr.run, findRest, Cmd.bind_error hloop]

end Search

/-! ## What the reads of a search preserve -/

/-- The locals of the search. -/
def Buf.Table : Buf → Prop
  | .hf | .dim | .guid => True
  | _ => False

/-- `R` holds across reads of the table that succeed, one after the other, and `F` across such
reads if the last of them fails. -/
structure ReadClosed (read : GptRead σ) (R : σ → σ → Prop) (F : σ → CInt → σ → Prop) : Prop where
  refl : ∀ s, R s s
  trans : ∀ {s s₁ s₂}, R s s₁ → R s₁ s₂ → R s s₂
  fail : ∀ {s s₁ c s₂}, R s s₁ → F s₁ c s₂ → F s c s₂
  reads : ∀ {buf addr len s data s'}, Reads read buf addr len s data s' → buf.Table → R s s'
  fails : ∀ {buf addr len s c s'}, Fails read buf addr len s c s' → buf.Table → F s c s'

namespace ReadClosed

variable {read : GptRead σ} {R : σ → σ → Prop} {F : σ → CInt → σ → Prop}
  {maxLbas : U64} {tguid pguid : Option Guid} {hf : HdrFields} {p : ℕ} {s s' : σ}
  {d : PartFields} {out out' : FindOut} {c : CInt}

theorem compares (h : ReadClosed read R F) {g : Option Guid} {addr : U64} {b : Bool}
    (hc : Compares read g addr s b s') : R s s' := by
  cases hc with
  | null => exact h.refl s
  | read hread => exact h.reads hread trivial

theorem compareFails (h : ReadClosed read R F) {g : Option Guid} {addr : U64}
    (hc : CompareFails read g addr s c s') : F s c s' := by
  cases hc with
  | read hread => exact h.fails hread trivial

theorem sized (h : ReadClosed read R F) (hd : Sized read hf p s d s') : R s s' := by
  obtain ⟨data, hread, -⟩ := hd
  exact h.reads hread trivial

theorem skipped (h : ReadClosed read R F) (hs : Skipped read maxLbas tguid pguid hf p s d s') :
    R s s' := by
  cases hs with
  | tooLarge hd _ => exact h.sized hd
  | noMatch hd _ ht hp => exact h.trans (h.sized hd) (h.trans (h.compares ht) (h.compares hp))

theorem chosen (h : ReadClosed read R F) (hc : Chosen read maxLbas tguid pguid hf p s d s') :
    R s s' := by
  cases hc with
  | tguid hd _ ht => exact h.trans (h.sized hd) (h.compares ht)
  | pguid hd _ ht hp => exact h.trans (h.sized hd) (h.trans (h.compares ht) (h.compares hp))

theorem entryFails (h : ReadClosed read R F)
    (hfail : EntryFails read maxLbas tguid pguid hf p s out c out' s') : F s c s' := by
  cases hfail with
  | dim hd => exact h.fails hd trivial
  | tguid hd _ ht => exact h.fail (h.sized hd) (h.compareFails ht)
  | pguid hd _ ht hp =>
    exact h.fail (h.trans (h.sized hd) (h.compares ht)) (h.compareFails hp)

theorem passed (h : ReadClosed read R F) {ds : List PartFields}
    (hp : Passed read maxLbas tguid pguid hf ds s s') : R s s' := by
  induction hp with
  | nil => exact h.refl _
  | snoc _ hskip ih => exact h.trans ih (h.skipped hskip)

/-- A whole search keeps `R` if it returns 0, and `F` otherwise. -/
theorem findRun (h : ReadClosed read R F)
    (hrun : FindRun read maxLbas tguid pguid s out c out' s') :
    (c = 0 ∧ R s s') ∨ F s c s' := by
  cases hrun with
  | headerFails hhdr => exact Or.inr (h.fails hhdr trivial)
  | found hhdr _ hp hc =>
    obtain ⟨data, hread, -⟩ := hhdr
    exact Or.inl ⟨rfl, h.trans (h.reads hread trivial) (h.trans (h.passed hp) (h.chosen hc))⟩
  | notFound hhdr _ hp =>
    obtain ⟨data, hread, -⟩ := hhdr
    exact Or.inl ⟨rfl, h.trans (h.reads hread trivial) (h.passed hp)⟩
  | entryFails hhdr _ hp hfail =>
    obtain ⟨data, hread, -⟩ := hhdr
    exact Or.inr (h.fail (h.trans (h.reads hread trivial) (h.passed hp)) (h.entryFails hfail))

end ReadClosed

end Cheshire.Gpt
