import Cheshire.SlinkPreload
import Mathlib.Tactic.LinearCombination

/-!
# What the preload leaves in memory

The target stores every strobed byte of a beat. All bytes of a burst's bus words are strobed, so
the zeros that fill its first and last word reach memory.

**Theorem (`preload_store_iff`).** The memory after the preload is the initial memory with the
sections stored into it exactly when no byte that should differ from zero is *wiped*: filled up by
the last section whose bus words cover it.

**Which bytes a section wipes** (`Section.Wipes`).

- Those behind its end, in its last bus word.
- Those before a burst, in the first bus word of that burst. The bursts of the first page start
  `SlinkBurstBytes` apart, so a section that does not start at a bus word loses bytes of its own
  here. In a later page all bursts start at bus words.
-/

namespace Cheshire.SlinkPreload

open Lib

/-! ## The target -/

abbrev Memory := ℕ → Byte

/-- The target stores the strobed bytes of a beat into a bus word. -/
def storeBeat {w : ℕ} (b : WBeat w) (word : ℕ) (mem : Memory) : Memory := fun a =>
  if a / w = word ∧ b.wStrb.getLsbD (a % w) then b.wData (a % w) else mem a

/-- The beats of an incrementing burst go to one word after the other. -/
def storeBeats {w : ℕ} : List (WBeat w) → ℕ → Memory → Memory
  | [], _, mem => mem
  | b :: beats, word, mem => storeBeats beats (word + 1) (storeBeat b word mem)

def Write.store {w : ℕ} (x : Write w) (mem : Memory) : Memory :=
  storeBeats x.beats (x.axAddr / w) mem

def storeAll {w : ℕ} (bursts : List (Burst w)) (mem : Memory) : Memory :=
  bursts.foldl (fun mem b => b.write.store mem) mem

theorem storeBeats_eq {w : ℕ} (hw : 0 < w) (beat : ℕ → WBeat w)
    (hstrb : ∀ i, (beat i).wStrb = BitVec.allOnes w) (n word : ℕ) (mem : Memory) (a : ℕ) :
    storeBeats ((List.range n).map beat) word mem a =
      if word ≤ a / w ∧ a / w < word + n then (beat (a / w - word)).wData (a % w) else mem a := by
  induction n generalizing beat word mem with
  | zero =>
    rw [if_neg (by omega)]
    rfl
  | succ n ih =>
    have hlane : (BitVec.allOnes w).getLsbD (a % w) = true := by simp [Nat.mod_lt a hw]
    rw [List.range_succ_eq_map, List.map_cons, List.map_map, storeBeats,
      ih (beat ∘ Nat.succ) (fun i => hstrb (i + 1))]
    by_cases hlater : word + 1 ≤ a / w ∧ a / w < word + 1 + n
    · have hsub : (a / w - (word + 1)).succ = a / w - word := by omega
      rw [if_pos hlater, if_pos (by omega), Function.comp_apply, hsub]
    · rw [if_neg hlater, storeBeat, hstrb, hlane]
      by_cases hfirst : a / w = word
      · rw [if_pos ⟨hfirst, rfl⟩, if_pos (by omega), hfirst, Nat.sub_self]
      · rw [if_neg (by omega), if_neg (by omega)]

/-! ## A burst -/

section Burst

variable (vip : Vip) (s : Section)

/-- The bus words that hold the `n` bytes from `x` on cover the address `a`. -/
def Covers (x n a : ℕ) : Prop :=
  0 < n ∧ x / vip.axiStrbWidth ≤ a / vip.axiStrbWidth ∧
    a / vip.axiStrbWidth ≤ (x + n - 1) / vip.axiStrbWidth

instance (x n a : ℕ) : Decidable (Covers vip x n a) := inferInstanceAs (Decidable (_ ∧ _ ∧ _))

theorem beatCount_words {x n : ℕ} (h : 0 < n) :
    x / vip.axiStrbWidth + beatCount vip x n = (x + n - 1) / vip.axiStrbWidth + 1 := by
  obtain ⟨hle, hlt⟩ := beatCount_bounds vip x n
  have hpos := beatCount_pos vip x h
  have hword := Nat.div_add_mod x vip.axiStrbWidth
  obtain ⟨k, hk⟩ := Nat.exists_eq_add_of_le' (show 1 ≤ beatCount vip x n by omega)
  rw [hk, Nat.add_mul, Nat.one_mul] at hle hlt
  have hquot : (x + n - 1) / vip.axiStrbWidth = x / vip.axiStrbWidth + k := by
    refine Nat.div_eq_of_lt_le ?_ ?_
    · rw [Nat.add_mul, Nat.mul_comm (x / _)]
      omega
    · rw [Nat.add_mul, Nat.add_mul, Nat.mul_comm (x / _)]
      omega
  omega

/-- Where the lane of address `a` is in a burst that starts at `x`. -/
theorem lane_place {w x a : ℕ} (h : x / w ≤ a / w) :
    (-(x % w : ℕ) + (a / w - x / w : ℕ) * w + (a % w : ℕ) : ℤ) = a - x := by
  have hx : ((w * (x / w) + x % w : ℕ) : ℤ) = x := congrArg Nat.cast (Nat.div_add_mod x w)
  have ha : ((w * (a / w) + a % w : ℕ) : ℤ) = a := congrArg Nat.cast (Nat.div_add_mod a w)
  rw [Nat.cast_sub h]
  rw [Nat.cast_add, Nat.cast_mul] at hx ha
  linear_combination ha - hx

theorem beatsOf_getD {o i : ℕ} (h : i < beatCount vip (s.secAddr + o) (burstLen vip s o)) :
    (beatsOf vip s o).getD i 0 = beatFrom s o (burstLen vip s o)
      (-((s.secAddr + o) % vip.axiStrbWidth : ℕ) + i * vip.axiStrbWidth) := by
  simp [beatsOf, h]

/-- The burst stores its bytes, and zeros into the rest of its bus words. -/
theorem burstAt_store {o : ℕ} (h : o < s.secLen) (mem : Memory) (a : ℕ) :
    (burstAt vip s o).write.store mem a =
      if Covers vip (s.secAddr + o) (burstLen vip s o) a then
        if s.secAddr + o ≤ a ∧ a < s.secAddr + o + burstLen vip s o then
          s.bf.getD (a - s.secAddr) 0
        else 0
      else mem a := by
  have hw := vip.strbWidth_pos
  have hpos := burstLen_pos vip s h
  have hcount := beatCount_words vip (x := s.secAddr + o) hpos
  have hword := Nat.div_add_mod (s.secAddr + o) vip.axiStrbWidth
  have haddr : (s.secAddr + o - (s.secAddr + o) % vip.axiStrbWidth) / vip.axiStrbWidth =
      (s.secAddr + o) / vip.axiStrbWidth := by
    rw [show s.secAddr + o - (s.secAddr + o) % vip.axiStrbWidth =
      vip.axiStrbWidth * ((s.secAddr + o) / vip.axiStrbWidth) by omega,
      Nat.mul_div_cancel_left _ hw]
  have hstore := storeBeats_eq hw (fun i => ⟨BitVec.allOnes _, (beatsOf vip s o).getD i 0,
    i == (beatsOf vip s o).length - 1⟩) (fun _ => rfl) (beatsOf vip s o).length
    ((s.secAddr + o - (s.secAddr + o) % vip.axiStrbWidth) / vip.axiStrbWidth) mem a
  refine Eq.trans hstore ?_
  rw [haddr, beatsOf_length, hcount]
  by_cases hcov : Covers vip (s.secAddr + o) (burstLen vip s o) a
  · obtain ⟨-, hfirst, hlast⟩ := hcov
    rw [if_pos ⟨hfirst, Nat.lt_succ_of_le hlast⟩, if_pos ⟨hpos, hfirst, hlast⟩]
    have hidx : a / vip.axiStrbWidth - (s.secAddr + o) / vip.axiStrbWidth <
        beatCount vip (s.secAddr + o) (burstLen vip s o) := by omega
    have hbeat := beatsOf_getD vip s hidx
    show (beatsOf vip s o).getD _ 0 _ = _
    rw [hbeat, beatFrom, add_assoc (o : ℤ), lane_place hfirst]
    by_cases hin : s.secAddr + o ≤ a ∧ a < s.secAddr + o + burstLen vip s o
    · have hidx : ((o : ℤ) + (a - (s.secAddr + o : ℕ))).toNat = a - s.secAddr := by omega
      rw [if_pos (by omega), if_pos hin, hidx]
    · rw [if_neg (by omega), if_neg hin]
  · rw [if_neg hcov, if_neg fun hin => hcov ⟨hpos, hin.1, Nat.le_of_lt_succ hin.2⟩]

end Burst

/-! ## A section -/

/-- The memory with the bytes of the section stored at its address. -/
def Section.stored (s : Section) (mem : Memory) : Memory := fun a =>
  if s.secAddr ≤ a ∧ a < s.secEnd then s.bf.getD (a - s.secAddr) 0 else mem a

section Section

variable (vip : Vip) (s : Section)

/-- A burst of the first page starts here. -/
def FirstPageStart (x : ℕ) : Prop :=
  x < s.secEnd ∧ x / 4096 = s.secAddr / 4096 ∧ ∃ j, x = s.secAddr + j * vip.slinkBurstBytes

/-- The section fills the byte at `a` up with zero. -/
def Section.Wipes (a : ℕ) : Prop :=
  (0 < s.secLen ∧ s.secEnd ≤ a ∧ a / vip.axiStrbWidth = (s.secEnd - 1) / vip.axiStrbWidth) ∨
    ∃ x, FirstPageStart vip s x ∧ a < x ∧ a / vip.axiStrbWidth = x / vip.axiStrbWidth

/-- What is left to wipe from the offset `o` on. -/
def WipesFrom (o a : ℕ) : Prop :=
  (o < s.secLen ∧ s.secEnd ≤ a ∧ a / vip.axiStrbWidth = (s.secEnd - 1) / vip.axiStrbWidth) ∨
    ∃ x, s.secAddr + o ≤ x ∧ FirstPageStart vip s x ∧ a < x ∧
      a / vip.axiStrbWidth = x / vip.axiStrbWidth

/-- The offset of a burst: in the first page a multiple of the burst length, in a later page at a
bus word. -/
def OnGrid (o : ℕ) : Prop :=
  FirstPageStart vip s (s.secAddr + o) ∨
    s.secAddr / 4096 < (s.secAddr + o) / 4096 ∧ vip.axiStrbWidth ∣ s.secAddr + o

/-- Two starts in the first page are a burst apart. -/
theorem FirstPageStart.apart {vip : Vip} {s : Section} {x y : ℕ} (hx : FirstPageStart vip s x)
    (hy : FirstPageStart vip s y) (h : x < y) : x + vip.slinkBurstBytes ≤ y := by
  obtain ⟨-, -, j, rfl⟩ := hx
  obtain ⟨-, -, k, rfl⟩ := hy
  have hjk : j < k := by
    by_contra hle
    have := Nat.mul_le_mul_right vip.slinkBurstBytes (Nat.le_of_not_lt hle)
    omega
  have := Nat.mul_le_mul_right vip.slinkBurstBytes (Nat.succ_le_of_lt hjk)
  rw [Nat.succ_mul] at this
  omega

theorem OnGrid.zero (h : 0 < s.secLen) : OnGrid vip s 0 :=
  Or.inl ⟨Nat.add_lt_add_left h _, rfl, 0, by rw [Nat.zero_mul, Nat.add_zero]⟩

/-- A multiple of the page size is at a bus word. -/
theorem page_aligned {x : ℕ} (h : x % 4096 = 0) : vip.axiStrbWidth ∣ x :=
  vip.strbWidth_dvd_page.trans (Nat.dvd_of_mod_eq_zero h)

theorem OnGrid.next {o : ℕ} (h : OnGrid vip s o) (hmore : o + burstLen vip s o < s.secLen) :
    OnGrid vip s (o + burstLen vip s o) := by
  have hpage := burstLen_le_page vip s o
  have heq := burstLen_eq vip s o
  have hend : s.secAddr + (o + burstLen vip s o) < s.secEnd := Nat.add_lt_add_left hmore _
  unfold pageLeft at hpage heq
  by_cases hcut : burstLen vip s o = 4096 - (s.secAddr + o) % 4096
  · -- the burst stops at the end of the page
    have hle : s.secAddr / 4096 ≤ (s.secAddr + o) / 4096 := Nat.div_le_div_right (by omega)
    refine Or.inr ⟨by omega, page_aligned vip (by omega)⟩
  · have hburst : burstLen vip s o = vip.slinkBurstBytes := by omega
    have hsame : (s.secAddr + (o + burstLen vip s o)) / 4096 = (s.secAddr + o) / 4096 := by omega
    rcases h with ⟨-, hfirst, j, hj⟩ | ⟨hlater, hword⟩
    · refine Or.inl ⟨hend, hsame.trans hfirst, j + 1, ?_⟩
      rw [Nat.succ_mul, ← Nat.add_assoc, ← Nat.add_assoc, ← hj, hburst]
    · refine Or.inr ⟨hsame ▸ hlater, ?_⟩
      rw [← Nat.add_assoc, hburst]
      exact Nat.dvd_add hword vip.burst_dvd

/-- No burst of the first page starts inside another burst. -/
theorem OnGrid.next_start {vip : Vip} {s : Section} {o x : ℕ} (h : OnGrid vip s o)
    (hx : FirstPageStart vip s x) (hlt : s.secAddr + o < x) :
    s.secAddr + o + burstLen vip s o ≤ x := by
  have hburst := burstLen_le_burst vip s o
  rcases h with hfirst | ⟨hlater, -⟩
  · have := hfirst.apart hx hlt
    omega
  · have := hx.2.1
    omega

/-- Of the bytes before a burst, those in its first word are wiped if any are. -/
theorem OnGrid.firstPageStart {vip : Vip} {s : Section} {o a : ℕ} (h : OnGrid vip s o)
    (ha : a < s.secAddr + o)
    (hword : (s.secAddr + o) / vip.axiStrbWidth ≤ a / vip.axiStrbWidth) :
    FirstPageStart vip s (s.secAddr + o) := by
  rcases h with hfirst | ⟨-, haligned⟩
  · exact hfirst
  · have hle := (Nat.le_div_iff_mul_le vip.strbWidth_pos).mp hword
    rw [Nat.div_mul_cancel haligned] at hle
    omega

/-- A burst wipes what it covers before its start or behind the section. -/
theorem wipesFrom_step {o : ℕ} (h : o < s.secLen) (hgrid : OnGrid vip s o) (a : ℕ) :
    WipesFrom vip s o a ↔ WipesFrom vip s (o + burstLen vip s o) a ∨
      Covers vip (s.secAddr + o) (burstLen vip s o) a ∧
        (a < s.secAddr + o ∨ s.secEnd ≤ a) := by
  have hpos := burstLen_pos vip s h
  have hleft := burstLen_le_left vip s o
  have hend : s.secEnd = s.secAddr + s.secLen := rfl
  have hmono {x y : ℕ} (hxy : x ≤ y) : x / vip.axiStrbWidth ≤ y / vip.axiStrbWidth :=
    Nat.div_le_div_right hxy
  constructor
  · rintro (⟨-, hbehind, hword⟩ | ⟨x, hx, hstart, hbefore, hword⟩)
    · by_cases hmore : o + burstLen vip s o < s.secLen
      · exact Or.inl (Or.inl ⟨hmore, hbehind, hword⟩)
      · have hlast : s.secAddr + o + burstLen vip s o - 1 = s.secEnd - 1 := by omega
        exact Or.inr ⟨⟨hpos, hmono (by omega), by rw [hlast, hword]⟩, Or.inr hbehind⟩
    · rcases Nat.eq_or_lt_of_le hx with rfl | hlt
      · exact Or.inr ⟨⟨hpos, hword.ge, hword.le.trans (hmono (by omega))⟩, Or.inl hbefore⟩
      · have hnext := hgrid.next_start hstart hlt
        exact Or.inl (Or.inr ⟨x, by omega, hstart, hbefore, hword⟩)
  · rintro ((⟨-, hbehind, hword⟩ | ⟨x, hx, hrest⟩) | ⟨⟨-, hfirst, hlast⟩, hbefore | hbehind⟩)
    · exact Or.inl ⟨h, hbehind, hword⟩
    · exact Or.inr ⟨x, by omega, hrest⟩
    · exact Or.inr ⟨s.secAddr + o, le_rfl, hgrid.firstPageStart hbefore hfirst, hbefore,
        (hmono hbefore.le).antisymm hfirst⟩
    · exact Or.inl ⟨h, hbehind, (hlast.trans (hmono (by omega))).antisymm (hmono (by omega))⟩

/-- A byte of the burst lies in its bus words. -/
theorem covers_of_mem {x n a : ℕ} (hx : x ≤ a) (ha : a < x + n) : Covers vip x n a :=
  ⟨by omega, Nat.div_le_div_right hx, Nat.div_le_div_right (by omega)⟩

/-- The bursts from `o` on. -/
theorem offsets_store {o : ℕ} (hgrid : o < s.secLen → OnGrid vip s o) (mem : Memory) (a : ℕ) :
    (WipesFrom vip s o a → storeAll ((offsets vip s o).map (burstAt vip s)) mem a = 0) ∧
      (¬WipesFrom vip s o a → storeAll ((offsets vip s o).map (burstAt vip s)) mem a =
        if s.secAddr + o ≤ a ∧ a < s.secEnd then s.bf.getD (a - s.secAddr) 0 else mem a) := by
  induction o using offsets.induct vip s generalizing mem with
  | case1 o hlt ih =>
    have hleft := burstLen_le_left vip s o
    have hpos := burstLen_pos vip s hlt
    obtain ⟨hwiped, hkept⟩ := ih (OnGrid.next vip s (hgrid hlt)) ((burstAt vip s o).write.store mem)
    have hstep := wipesFrom_step vip s hlt (hgrid hlt) a
    have hcons : storeAll ((offsets vip s o).map (burstAt vip s)) mem =
        storeAll ((offsets vip s (o + burstLen vip s o)).map (burstAt vip s))
          ((burstAt vip s o).write.store mem) := by
      rw [offsets, dif_pos hlt]
      rfl
    rw [hcons]
    rw [burstAt_store vip s hlt] at hkept
    by_cases hrest : WipesFrom vip s (o + burstLen vip s o) a
    · exact ⟨fun _ => hwiped hrest, fun hno => absurd (hstep.mpr (Or.inl hrest)) hno⟩
    · rw [hkept hrest, hstep.trans (or_iff_right hrest)]
      have hend : s.secEnd = s.secAddr + s.secLen := rfl
      by_cases hlater : s.secAddr + (o + burstLen vip s o) ≤ a ∧ a < s.secEnd
      · rw [if_pos hlater, if_pos (by omega)]
        exact ⟨fun hwipe => absurd hwipe.2 (by omega), fun _ => rfl⟩
      · rw [if_neg hlater]
        by_cases hcov : Covers vip (s.secAddr + o) (burstLen vip s o) a
        · rw [if_pos hcov]
          by_cases hin : s.secAddr + o ≤ a ∧ a < s.secAddr + o + burstLen vip s o
          · rw [if_pos hin, if_pos (by omega)]
            exact ⟨fun hwipe => absurd hwipe.2 (by omega), fun _ => rfl⟩
          · rw [if_neg hin]
            exact ⟨fun _ => rfl, fun hno => absurd ⟨hcov, by omega⟩ hno⟩
        · have hout : ¬(s.secAddr + o ≤ a ∧ a < s.secAddr + o + burstLen vip s o) :=
            fun hin => hcov (covers_of_mem vip hin.1 hin.2)
          rw [if_neg hcov, if_neg (by omega)]
          exact ⟨fun hwipe => absurd hwipe.1 hcov, fun _ => rfl⟩
  | case2 o hge =>
    have hend : s.secEnd = s.secAddr + s.secLen := rfl
    rw [offsets, dif_neg hge, if_neg (by omega)]
    refine ⟨fun hno => absurd hno ?_, fun _ => rfl⟩
    rintro (⟨hlt, -⟩ | ⟨x, hx, ⟨hlt, -⟩, -⟩)
    · exact hge hlt
    · omega

/-- The bursts of a section. -/
def bursts : List (Burst vip.axiStrbWidth) := (offsets vip s 0).map (burstAt vip s)

theorem wipes_iff (a : ℕ) : s.Wipes vip a ↔ WipesFrom vip s 0 a := by
  refine or_congr Iff.rfl (exists_congr fun x => ⟨fun h => ⟨?_, h⟩, fun h => h.2⟩)
  obtain ⟨⟨-, -, j, rfl⟩, -⟩ := h
  exact Nat.le_add_right _ _

/-- A section stores its bytes, and zeros into the bytes it wipes. -/
theorem bursts_store (mem : Memory) (a : ℕ) :
    (s.Wipes vip a → storeAll (bursts vip s) mem a = 0) ∧
      (¬s.Wipes vip a → storeAll (bursts vip s) mem a = s.stored mem a) := by
  rw [wipes_iff]
  exact offsets_store vip s (OnGrid.zero vip s) mem a

/-- The section's bus words cover the address. -/
def Section.Covers (a : ℕ) : Prop := SlinkPreload.Covers vip s.secAddr s.secLen a

theorem Section.Wipes.covers {vip : Vip} {s : Section} {a : ℕ} (h : s.Wipes vip a) :
    s.Covers vip a := by
  have hend : s.secEnd = s.secAddr + s.secLen := rfl
  rcases h with ⟨hpos, hbehind, hword⟩ | ⟨x, ⟨hx, -, j, rfl⟩, -, hword⟩
  · exact ⟨hpos, Nat.div_le_div_right (by omega), hword.le⟩
  · refine ⟨by omega, ?_, ?_⟩
    · rw [hword]
      exact Nat.div_le_div_right (by omega)
    · rw [hword]
      exact Nat.div_le_div_right (by omega)

/-- A byte of a bus word of the section is one of its bytes, or is wiped. -/
theorem Section.Covers.mem {vip : Vip} {s : Section} {a : ℕ} (h : s.Covers vip a)
    (hkept : ¬s.Wipes vip a) : s.secAddr ≤ a ∧ a < s.secEnd := by
  have hend : s.secEnd = s.secAddr + s.secLen := rfl
  obtain ⟨hpos, hfirst, hlast⟩ := h
  by_contra hout
  refine hkept ?_
  by_cases hbefore : a < s.secAddr
  · exact Or.inr ⟨s.secAddr, ⟨by omega, rfl, 0, by omega⟩, hbefore,
      (Nat.div_le_div_right hbefore.le).antisymm hfirst⟩
  · exact Or.inl ⟨hpos, by omega, hlast.antisymm (Nat.div_le_div_right (by omega))⟩

/-- A section leaves the bytes alone that its bus words do not cover. -/
theorem bursts_frame {a : ℕ} (h : ¬s.Covers vip a) (mem : Memory) :
    storeAll (bursts vip s) mem a = mem a ∧ s.stored mem a = mem a := by
  have hout : ¬(s.secAddr ≤ a ∧ a < s.secEnd) := fun hin => h (covers_of_mem vip hin.1 hin.2)
  have hstored : s.stored mem a = mem a := if_neg hout
  exact ⟨((bursts_store vip s mem a).2 fun hwipe => h hwipe.covers).trans hstored, hstored⟩

end Section

/-! ## The whole file -/

section File

variable (vip : Vip)

/-- The memory with the bytes of each section stored at its address. -/
def expected (secs : List Section) (mem : Memory) : Memory :=
  secs.foldl (fun mem s => s.stored mem) mem

/-- Every byte that the last section to cover it wipes should be zero. -/
def PaddingZero (secs : List Section) (mem : Memory) : Prop :=
  ∀ pre s post, secs = pre ++ s :: post → ∀ a, s.Wipes vip a →
    (∀ t ∈ post, ¬t.Covers vip a) → expected secs mem a = 0

theorem storeAll_append {w : ℕ} (bs cs : List (Burst w)) (mem : Memory) :
    storeAll (bs ++ cs) mem = storeAll cs (storeAll bs mem) := List.foldl_append

theorem expected_append (secs rest : List Section) (mem : Memory) :
    expected (secs ++ rest) mem = expected rest (expected secs mem) := List.foldl_append

/-- Sections that do not cover an address leave it alone. -/
theorem sections_frame {secs : List Section} {a : ℕ} (h : ∀ s ∈ secs, ¬s.Covers vip a)
    (mem : Memory) :
    storeAll (secs.flatMap (bursts vip)) mem a = mem a ∧ expected secs mem a = mem a := by
  induction secs generalizing mem with
  | nil => exact ⟨rfl, rfl⟩
  | cons s secs ih =>
    obtain ⟨hstore, hstored⟩ := bursts_frame vip s (h s List.mem_cons_self) mem
    obtain ⟨hrest, -⟩ := ih (fun t ht => h t (List.mem_cons_of_mem _ ht))
      (storeAll (bursts vip s) mem)
    obtain ⟨-, hrest'⟩ := ih (fun t ht => h t (List.mem_cons_of_mem _ ht)) (s.stored mem)
    rw [List.flatMap_cons, storeAll_append]
    exact ⟨hrest.trans hstore, hrest'.trans hstored⟩

/-- The last element with a property, if there is any. -/
theorem last_split {α : Type*} (P : α → Prop) (l : List α) :
    (∀ x ∈ l, ¬P x) ∨ ∃ pre x post, l = pre ++ x :: post ∧ P x ∧ ∀ y ∈ post, ¬P y := by
  induction l with
  | nil => exact Or.inl fun x hx => absurd hx List.not_mem_nil
  | cons x l ih =>
    rcases ih with hnone | ⟨pre, y, post, rfl, hy⟩
    · by_cases hx : P x
      · exact Or.inr ⟨[], x, l, rfl, hx, hnone⟩
      · exact Or.inl (List.forall_mem_cons.mpr ⟨hx, hnone⟩)
    · exact Or.inr ⟨x :: pre, y, post, rfl, hy⟩

theorem store_eq_zero {pre post : List Section} {s : Section} {a : ℕ} (h : s.Wipes vip a)
    (hpost : ∀ t ∈ post, ¬t.Covers vip a) (mem : Memory) :
    storeAll ((pre ++ s :: post).flatMap (bursts vip)) mem a = 0 := by
  rw [List.flatMap_append, List.flatMap_cons, storeAll_append, storeAll_append,
    (sections_frame vip hpost _).1]
  exact (bursts_store vip s _ a).1 h

/-- The memory is as expected exactly where nothing else than zero is wiped. -/
theorem store_iff (secs : List Section) (mem : Memory) :
    storeAll (secs.flatMap (bursts vip)) mem = expected secs mem ↔ PaddingZero vip secs mem := by
  constructor
  · rintro h pre s post rfl a hwipe hpost
    rw [← h]
    exact store_eq_zero vip hwipe hpost mem
  · intro h
    funext a
    rcases last_split (fun s => s.Covers vip a) secs with hnone | ⟨pre, s, post, rfl, hcov, hpost⟩
    · exact ((sections_frame vip hnone mem).1).trans (sections_frame vip hnone mem).2.symm
    · by_cases hwipe : s.Wipes vip a
      · rw [store_eq_zero vip hwipe hpost, h pre s post rfl a hwipe hpost]
      · have hin := hcov.mem hwipe
        rw [List.flatMap_append, List.flatMap_cons, storeAll_append, storeAll_append,
          (sections_frame vip hpost _).1, (bursts_store vip s _ a).2 hwipe, expected_append]
        show _ = expected post (s.stored _) a
        rw [(sections_frame vip hpost _).2, Section.stored, Section.stored, if_pos hin, if_pos hin]

theorem slinkElfPreload_eq (secs : List Section) {fuel : ℕ}
    (hfuel : 257 + (secs.map Section.secLen).sum ≤ fuel) :
    slinkElfPreload vip fuel secs = some (secs.flatMap (bursts vip)) := by
  induction secs with
  | nil => rfl
  | cons s secs ih =>
    rw [List.map_cons, List.sum_cons] at hfuel
    rw [slinkElfPreload, preloadSection_eq vip s (by omega) (by omega), ih (by omega)]
    rfl

/-- **Main result.** The preload ends, and leaves the sections in memory and all else as it was
exactly when nothing else than zero is wiped. -/
theorem preload_store_iff (secs : List Section) (mem : Memory) :
    ∃ bs, (∃ n, ∀ fuel ≥ n, slinkElfPreload vip fuel secs = some bs) ∧
      (storeAll bs mem = expected secs mem ↔ PaddingZero vip secs mem) :=
  ⟨_, ⟨_, fun _ hfuel => slinkElfPreload_eq vip secs hfuel⟩, store_iff vip secs mem⟩

end File

/-! ## A section inside a bus word -/

/-- The default burst on a bus of 8 bytes. -/
def vip64 : Vip :=
  ⟨3, 1024, by decide, by decide, by decide, by decide, by decide⟩

/-- Four bytes at address 4. -/
def word : Section := ⟨4, [1, 1, 1, 1]⟩

/-- With memory full of ones, the four bytes before the section are lost. -/
theorem preload_wipes_neighbour :
    ¬∀ (vip : Vip) (secs : List Section),
      secs.Pairwise (fun s t => s.secEnd ≤ t.secAddr ∨ t.secEnd ≤ s.secAddr) →
      ∀ (mem : Memory) (n : ℕ) (bs : List (Burst vip.axiStrbWidth)),
        (∀ fuel ≥ n, slinkElfPreload vip fuel secs = some bs) →
          storeAll bs mem = expected secs mem := by
  intro h
  have hstore := h vip64 [word] (List.pairwise_singleton _ _) (fun _ => 1) _ _
    fun _ hfuel => slinkElfPreload_eq vip64 [word] hfuel
  have hwipe : word.Wipes vip64 3 :=
    Or.inr ⟨4, ⟨by decide, by decide, 0, by decide⟩, by decide, by decide⟩
  have hzero := (store_iff vip64 [word] fun _ => 1).mp hstore [] word [] rfl 3 hwipe
    fun t ht => absurd ht List.not_mem_nil
  exact absurd hzero (by decide)

end Cheshire.SlinkPreload
