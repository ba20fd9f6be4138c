import Cheshire.GptRun
import Mathlib.Order.Bounds.Basic

/-!
# Searching the partition table of a disk

A disk is an array of bytes with 64-bit addresses; its partition table is where its header says.
`Matches` says which entries are eligible: they fit, and have one of the GUIDs asked for.

**Theorem (`gptFindPartition_table`).** If every read succeeds and returns the bytes of the disk,
the search finds the first eligible entry, and otherwise reports the start of the first entry.

The runs of the search are known (`FindRun`). What is left to show is what the reads of a run say
about the table, for callbacks that may fail but do not lie (`Honest`): the entries that a run
passes are ineligible, and the one it chooses is eligible.
-/

namespace Cheshire.Gpt

open Lib

variable {σ : Type}

/-! ## Disks -/

abbrev Disk := U64 → Byte

/-- The bytes from address `a` on. -/
def Disk.from (disk : Disk) (a : U64) : ℕ → Byte := fun i => disk (a + BitVec.ofNat 64 i)

def Disk.header (disk : Disk) : HdrFields := hdrFields (disk.from (0x200 + 0x48))

/-- How many entries the table has. -/
def Disk.count (disk : Disk) : ℕ := disk.header.count.toNat

def Disk.part (disk : Disk) (k : ℕ) : PartFields :=
  partFields (disk.from (peOffs disk.header k + 0x20))

def Disk.typeGuid (disk : Disk) (k : ℕ) : Guid := guidAt (disk.from (peOffs disk.header k))

def Disk.uniqueGuid (disk : Disk) (k : ℕ) : Guid :=
  guidAt (disk.from (peOffs disk.header k + 0x10))

/-- Entry `k` fits, and has a GUID that is asked for. -/
def Disk.Matches (disk : Disk) (maxLbas : U64) (tguid pguid : Option Guid) (k : ℕ) : Prop :=
  (disk.part k).Fits maxLbas ∧ (tguid = some (disk.typeGuid k) ∨ pguid = some (disk.uniqueGuid k))

instance (d : PartFields) (maxLbas : U64) : Decidable (d.Fits maxLbas) := by
  unfold PartFields.Fits
  infer_instance

instance (disk : Disk) (maxLbas : U64) (tguid pguid : Option Guid) (k : ℕ) :
    Decidable (disk.Matches maxLbas tguid pguid k) := by
  unfold Disk.Matches
  infer_instance

/-- Reads that succeed return the bytes of the disk. -/
def Honest (read : GptRead σ) (disk : Disk) : Prop :=
  ∀ buf addr len s data s', Reads read buf addr len s data s' →
    ∀ i < len.toNat, data i = disk.from addr i

/-- Reads succeed and return the bytes of the disk. -/
def Serves (read : GptRead σ) (disk : Disk) : Prop :=
  ∀ buf addr len s, (read buf addr len s).1.ret = 0 ∧
    ∀ i < len.toNat, (read buf addr len s).1.data i = disk.from addr i

theorem Serves.honest {read : GptRead σ} {disk : Disk} (h : Serves read disk) :
    Honest read disk := by
  intro buf addr len s data s' hread i hi
  have := (h buf addr len s).2 i hi
  rwa [show read buf addr len s = _ from hread] at this

theorem Serves.not_fails {read : GptRead σ} {disk : Disk} (h : Serves read disk) {buf : Buf}
    {addr len : U64} {s s' : σ} {c : CInt} : ¬Fails read buf addr len s c s' := by
  intro hfail
  obtain ⟨hc, data, hread⟩ := hfail
  have := (h buf addr len s).1
  rw [hread] at this
  exact hc this

/-! ## Fields depend on the bytes read -/

section Fields

variable {f g : ℕ → Byte}

theorem u64At_congr {o : ℕ} (h : ∀ i < 8, f (o + i) = g (o + i)) : u64At f o = u64At g o := by
  rw [u64At, u64At, le_congr h]

theorem u32At_congr {o : ℕ} (h : ∀ i < 4, f (o + i) = g (o + i)) : u32At f o = u32At g o := by
  rw [u32At, u32At, le_congr h]

theorem partFields_congr (h : ∀ i < 16, f i = g i) : partFields f = partFields g := by
  unfold partFields
  rw [u64At_congr fun i hi => h _ (by omega), u64At_congr fun i hi => h _ (by omega)]

theorem guidAt_congr (h : ∀ i < 16, f i = g i) : guidAt f = guidAt g := by
  unfold guidAt
  rw [u64At_congr fun i hi => h _ (by omega), u64At_congr fun i hi => h _ (by omega)]

theorem hdrFields_congr (h : ∀ i < 16, f i = g i) : hdrFields f = hdrFields g := by
  unfold hdrFields
  rw [u64At_congr fun i hi => h _ (by omega), u32At_congr fun i hi => h _ (by omega),
    u32At_congr fun i hi => h _ (by omega)]

end Fields

/-! ## What a run says about the table -/

section Table

variable {read : GptRead σ} {disk : Disk} {maxLbas : U64} {tguid pguid : Option Guid} {p : ℕ}
  {s s' : σ} {d : PartFields}

theorem Header.eq (h : Honest read disk) {hf : HdrFields} (hh : Header read s hf s') :
    hf = disk.header := by
  obtain ⟨data, hread, rfl⟩ := hh
  exact hdrFields_congr (h _ _ _ _ _ _ hread)

theorem Sized.eq (h : Honest read disk) (hd : Sized read disk.header p s d s') :
    d = disk.part p := by
  obtain ⟨data, hread, rfl⟩ := hd
  exact partFields_congr (h _ _ _ _ _ _ hread)

theorem Compares.iff (h : Honest read disk) {g : Option Guid} {addr : U64} {b : Bool}
    (hc : Compares read g addr s b s') : b = true ↔ g = some (guidAt (disk.from addr)) := by
  cases hc with
  | null => simp
  | read hread =>
    rw [guidAt_congr (h _ _ _ _ _ _ hread), decide_eq_true_iff, Option.some_inj, eq_comm]

theorem Skipped.not_matches (h : Honest read disk)
    (hs : Skipped read maxLbas tguid pguid disk.header p s d s') :
    d = disk.part p ∧ ¬disk.Matches maxLbas tguid pguid p := by
  cases hs with
  | tooLarge hd hfit =>
    obtain rfl := hd.eq h
    exact ⟨rfl, fun hm => hfit hm.1⟩
  | noMatch hd hfit ht hp =>
    refine ⟨hd.eq h, fun hm => ?_⟩
    rcases hm.2 with hg | hg
    · exact Bool.noConfusion ((ht.iff h).2 hg)
    · exact Bool.noConfusion ((hp.iff h).2 hg)

theorem Chosen.matches (h : Honest read disk)
    (hc : Chosen read maxLbas tguid pguid disk.header p s d s') :
    d = disk.part p ∧ disk.Matches maxLbas tguid pguid p := by
  cases hc with
  | tguid hd hfit ht =>
    obtain rfl := hd.eq h
    exact ⟨rfl, hfit, Or.inl ((ht.iff h).1 rfl)⟩
  | pguid hd hfit ht hp =>
    obtain rfl := hd.eq h
    exact ⟨rfl, hfit, Or.inr ((hp.iff h).1 rfl)⟩

theorem Passed.not_matches (h : Honest read disk) {ds : List PartFields}
    (hp : Passed read maxLbas tguid pguid disk.header ds s s') :
    ds = (List.range ds.length).map disk.part ∧
      ∀ k < ds.length, ¬disk.Matches maxLbas tguid pguid k := by
  induction hp with
  | nil => exact ⟨rfl, fun k hk => absurd hk (Nat.not_lt_zero k)⟩
  | @snoc ds d _ _ _ _ hskip ih =>
    obtain ⟨hds, hnot⟩ := ih
    obtain ⟨hd, hlast⟩ := hskip.not_matches h
    rw [List.length_append, List.length_singleton]
    refine ⟨?_, fun k hk => ?_⟩
    · rw [List.range_succ, List.map_append, ← hds, List.map_singleton, ← hd]
    · rcases Nat.lt_succ_iff_lt_or_eq.1 hk with hk | rfl
      · exact hnot k hk
      · exact hlast

theorem EntryFails.absurd (h : Serves read disk) {hf : HdrFields} {out out' : FindOut} {c : CInt}
    (hfail : EntryFails read maxLbas tguid pguid hf p s out c out' s') : False := by
  cases hfail with
  | dim hd => exact h.not_fails hd
  | tguid _ _ ht =>
    cases ht with
    | read hread => exact h.not_fails hread
  | pguid _ _ _ hp =>
    cases hp with
    | read hread => exact h.not_fails hread

/-- What the search reports for a table, given what the outputs were. -/
structure Reports (disk : Disk) (maxLbas : U64) (tguid pguid : Option Guid) (out out' : FindOut) :
    Prop where
  found : ∀ M, IsLeast {k | k < disk.count ∧ disk.Matches maxLbas tguid pguid k} M →
    out' = ⟨M, (disk.part M).lbaBegin, (disk.part M).lbaEnd⟩
  notFound : (∀ k < disk.count, ¬disk.Matches maxLbas tguid pguid k) →
    out'.partIdx = -1 ∧
      (0 < disk.count → out'.lbaBegin = (disk.part 0).lbaBegin ∧ out'.lbaEnd =
        minU64 (disk.part 0).lbaEnd ((disk.part 0).lbaBegin + maxLbas - 1)) ∧
      (disk.count = 0 → out'.lbaBegin = out.lbaBegin ∧ out'.lbaEnd = out.lbaEnd)

/-- A run that chooses entry `ds.length` reports it. -/
theorem reports_of_found (h : Honest read disk) {out : FindOut} {ds : List PartFields}
    {s₁ s₂ s₃ : σ} (hlen : ds.length < disk.count)
    (hp : Passed read maxLbas tguid pguid disk.header ds s₁ s₂)
    (hc : Chosen read maxLbas tguid pguid disk.header ds.length s₂ d s₃) :
    Reports disk maxLbas tguid pguid out ⟨ds.length, d.lbaBegin, d.lbaEnd⟩ := by
  obtain ⟨rfl, hmatch⟩ := hc.matches h
  obtain ⟨-, hnot⟩ := hp.not_matches h
  have hleast : IsLeast {k | k < disk.count ∧ disk.Matches maxLbas tguid pguid k} ds.length := by
    refine ⟨⟨hlen, hmatch⟩, fun k hk => ?_⟩
    by_contra hlt
    exact hnot k (Nat.lt_of_not_le hlt) hk.2
  refine ⟨fun M hM => ?_, fun hnone => absurd hmatch (hnone _ hlen)⟩
  rw [hM.unique hleast]

/-- A run that passes the whole table reports its first entry. -/
theorem reports_of_notFound (h : Honest read disk) {out : FindOut} {ds : List PartFields}
    {s₁ s₂ : σ} (hlen : ds.length = disk.count)
    (hp : Passed read maxLbas tguid pguid disk.header ds s₁ s₂) :
    Reports disk maxLbas tguid pguid out { recordedAll maxLbas ds out with partIdx := -1 } := by
  obtain ⟨hds, hnot⟩ := hp.not_matches h
  refine ⟨fun M hM => absurd hM.1.2 (hnot M (hlen ▸ hM.1.1)), fun _ => ⟨rfl, ?_, ?_⟩⟩
  · intro hpos
    have hhead : ds.head? = some (disk.part 0) := by
      rw [hds, List.head?_map, List.head?_range, if_neg (by omega)]
      rfl
    exact recordedAll_head maxLbas out hhead
  · intro hzero
    have hnil : ds = [] := List.eq_nil_of_length_eq_zero (hlen.trans hzero)
    rw [hnil]
    exact ⟨rfl, rfl⟩

/-- **Main result.** On a disk whose reads never fail, the search returns 0 and reports the first
eligible entry, or else the start of the first entry. -/
theorem gptFindPartition_table (h : Serves read disk) (maxLbas : U64) (tguid pguid : Option Guid)
    (s : Find σ) :
    (gptFindPartition read maxLbas tguid pguid s).1 = 0 ∧
      Reports disk maxLbas tguid pguid s.out
        (gptFindPartition read maxLbas tguid pguid s).2.out := by
  obtain ⟨dev, out⟩ := s
  obtain ⟨c, out', s', hrun⟩ := findRun_total read maxLbas tguid pguid dev out
  rw [hrun.run]
  cases hrun with
  | headerFails hhdr => exact absurd hhdr h.not_fails
  | found hhdr hlen hp hc =>
    obtain rfl := hhdr.eq h.honest
    exact ⟨rfl, reports_of_found h.honest hlen hp hc⟩
  | notFound hhdr hlen hp =>
    obtain rfl := hhdr.eq h.honest
    exact ⟨rfl, reports_of_notFound h.honest hlen hp⟩
  | entryFails _ _ _ hfail => exact (hfail.absurd h).elim

end Table

/-- A device that always serves `disk`. -/
def serve (disk : Disk) : GptRead Unit := fun _ addr _ s => (⟨0, disk.from addr⟩, s)

/-- A disk for the example below: the byte at `a` is the low byte of `a`. -/
def countingDisk : Disk := fun a => a.setWidth 8

theorem gptFindPartition_table_serve : Serves (serve countingDisk) countingDisk ∧
    (gptFindPartition (serve countingDisk) 96 (some (1, 2)) none ⟨(), ⟨0, 0, 0⟩⟩).1 = 0 ∧
      Reports countingDisk 96 (some (1, 2)) none ⟨0, 0, 0⟩
        (gptFindPartition (serve countingDisk) 96 (some (1, 2)) none ⟨(), ⟨0, 0, 0⟩⟩).2.out := by
  have hserves : Serves (serve countingDisk) countingDisk :=
    fun _ _ _ _ => ⟨rfl, fun _ _ => rfl⟩
  exact ⟨hserves, gptFindPartition_table hserves 96 (some (1, 2)) none ⟨(), ⟨0, 0, 0⟩⟩⟩

end Cheshire.Gpt
