import Cheshire.Lib.Progress
import Cheshire.Smp
import Mathlib.Algebra.BigOperators.Group.Finset.Basic
import Mathlib.Algebra.Order.BigOperators.Group.Finset

/-!
# The harts do not wait forever: `smp_resume`

Each hart has `rank` accesses left at most. An access that finds its hart waiting, in loop `2` or
`3`, leaves the state alone, and every other one lowers the rank of its hart.

**Theorem (`smp_resume_progress`).** From any reachable state, and whatever the order in which the
harts take their accesses, as long as no hart is left out for good: in the end all harts have
jumped to the address that hart 0 was called with.

Some hart can always go on (`Inv.live`). Hart 0 waits for nobody up to the end of loop `1`; from
there on a hart in loop `2` finds its register set until it has cleared it, so that if all of them
are past it, loop `3` finds all registers clear.
-/

namespace Cheshire.Smp

open Lib Finset

variable {n : ℕ} {addr : BitVec 64} {s : State} {h : ℕ}

/-- How many accesses a hart at `p` has left, apart from those that find it waiting. -/
def Pc.rank (n : ℕ) : Pc → ℕ
  | .nextStage _ => 0
  | .loadLo _ => 1
  | .loadHi => 2
  | .scan t0 => 2 + (n - t0)
  | .clear => 3 + n
  | .wait => 4 + n
  | .set t0 => 4 + n + (n - t0)
  | .resume => 5 + 2 * n
  | .storeHi => 6 + 2 * n
  | .storeLo => 7 + 2 * n
  | .bootRom => 8 + 2 * n
  | .pause => 9 + 2 * n

/-- The accesses that all harts have left. -/
def State.rank (n : ℕ) (s : State) : ℕ := ∑ h ∈ range n, (s.pc h).rank n

/-- Every hart has jumped to `addr`. -/
def State.Launched (n : ℕ) (addr : BitVec 64) (s : State) : Prop :=
  ∀ h < n, s.pc h = .nextStage addr

/-! ## Waiting, or going on -/

/-- The hart waits for a register to be set or cleared. -/
inductive Waits (s : State) (h : ℕ) : Prop
  | wait : s.pc h = .wait → s.msip h &&& 1 = 0 → Waits s h
  | scan {t0 : ℕ} : s.pc h = .scan t0 → s.msip t0 ≠ 0 → Waits s h
  | nextStage {t0 : BitVec 64} : s.pc h = .nextStage t0 → Waits s h

/-- An access either leaves the state alone or brings its hart closer to its jump. -/
theorem Inv.exec_cases (hI : Inv n addr s) (hh : h < n) :
    Waits s h ∧ Smp.exec n addr h s = s ∨
      ∃ q : Pc, (Smp.exec n addr h s).pc = Function.update s.pc h q ∧
        q.rank n < (s.pc h).rank n := by
  have hloc := hI.hart h hh
  cases hp : s.pc h with
  | pause =>
    rw [Smp.exec, hp]
    dsimp only
    split_ifs
    · exact .inr ⟨.bootRom, rfl, by simp [Pc.rank]⟩
    · exact .inr ⟨.wait, rfl, by simp [Pc.rank]; omega⟩
  | bootRom => exact .inr ⟨.storeLo, by rw [Smp.exec, hp]; rfl, by simp [Pc.rank]⟩
  | storeLo => exact .inr ⟨.storeHi, by rw [Smp.exec, hp]; rfl, by simp [Pc.rank]⟩
  | storeHi => exact .inr ⟨.resume, by rw [Smp.exec, hp]; rfl, by simp [Pc.rank]⟩
  | resume => exact .inr ⟨.set 0, by rw [Smp.exec, hp]; rfl, by simp [Pc.rank]; omega⟩
  | set t0 =>
    rw [hp] at hloc
    obtain ⟨-, ht⟩ := hloc
    refine .inr ⟨if t0 + 1 < n then .set (t0 + 1) else .wait, by rw [Smp.exec, hp]; rfl, ?_⟩
    split_ifs <;> simp [Pc.rank] <;> omega
  | wait =>
    by_cases hz : s.msip h &&& 1 = 0
    · exact .inl ⟨.wait hp hz, by rw [Smp.exec, hp]; exact if_pos hz⟩
    · refine .inr ⟨.clear, ?_, by simp [Pc.rank]⟩
      rw [Smp.exec, hp]
      dsimp only
      rw [if_neg hz]
      rfl
  | clear => exact .inr ⟨.scan 0, by rw [Smp.exec, hp]; rfl, by simp [Pc.rank]⟩
  | scan t0 =>
    rw [hp] at hloc
    have ht : t0 < n := hloc
    by_cases hz : s.msip t0 ≠ 0
    · exact .inl ⟨.scan hp hz, by rw [Smp.exec, hp]; exact if_pos hz⟩
    · refine .inr ⟨if t0 + 1 < n then .scan (t0 + 1) else .loadHi, ?_, ?_⟩
      · rw [Smp.exec, hp]
        dsimp only
        rw [if_neg hz]
        rfl
      · split_ifs <;> simp [Pc.rank] <;> omega
  | loadHi => exact .inr ⟨_, by rw [Smp.exec, hp]; rfl, by simp [Pc.rank]⟩
  | loadLo t1 => exact .inr ⟨_, by rw [Smp.exec, hp]; rfl, by simp [Pc.rank]⟩
  | nextStage t0 => exact .inl ⟨.nextStage hp, by rw [Smp.exec, hp]⟩

/-- The rank of a state falls with the rank of one hart. -/
theorem rank_lt {s' : State} {q : Pc} (hh : h < n) (hpc : s'.pc = Function.update s.pc h q)
    (hq : q.rank n < (s.pc h).rank n) : s'.rank n < s.rank n := by
  refine sum_lt_sum (fun k _ => ?_) ⟨h, mem_range.2 hh, ?_⟩
  · rw [hpc]
    by_cases hk : k = h
    · subst hk
      rw [Function.update_self]
      exact hq.le
    · rw [Function.update_of_ne hk]
  · rw [hpc, Function.update_self]
    exact hq

theorem Inv.descends (hI : Inv n addr s) (hh : h < n) :
    Smp.exec n addr h s = s ∨ (Smp.exec n addr h s).rank n < s.rank n := by
  rcases hI.exec_cases hh with ⟨-, hsame⟩ | ⟨q, hpc, hq⟩
  · exact .inl hsame
  · exact .inr (rank_lt hh hpc hq)

/-! ## Somebody can go on -/

/-- If all harts wait, they wait behind their jumps. -/
theorem Inv.launched_of_waits (hI : Inv n addr s) (hall : ∀ h < n, Waits s h) :
    s.Launched n addr := by
  intro h hh
  have hn : 0 < n := Nat.zero_lt_of_lt hh
  -- hart 0 is past loop `1`
  have hset (k : ℕ) : (s.pc 0).HasSet k := by
    cases hall 0 hn with
    | wait hp _ | scan hp _ | nextStage hp =>
      rw [hp]
      trivial
  -- so that every register is set until its hart has cleared it
  have hmsip (k : ℕ) (hk : k < n) : s.msip k = if (s.pc k).Cleared then 0 else 1 := by
    rw [hI.msip k hk]
    by_cases hc : (s.pc k).Cleared
    · rw [if_pos hc, if_neg fun h => h.2 hc]
    · rw [if_neg hc, if_pos ⟨hset k, hc⟩]
  have hclr (k : ℕ) (hk : k < n) : (s.pc k).Cleared := by
    cases hall k hk with
    | wait hp hz =>
      have hnot : ¬(s.pc k).Cleared := by
        rw [hp]
        exact id
      rw [hmsip k hk, if_neg hnot] at hz
      exact absurd hz (by decide)
    | scan hp _ | nextStage hp =>
      rw [hp]
      trivial
  have hloc := hI.hart h hh
  cases hall h hh with
  | wait hp _ =>
    have := hclr h hh
    rw [hp] at this
    exact this.elim
  | scan hp hz =>
    rw [hp] at hloc
    rw [hmsip _ hloc, if_pos (hclr _ hloc)] at hz
    exact absurd rfl hz
  | nextStage hp =>
    rw [hp] at hloc
    rw [hp, show _ = addr from hloc]

theorem Inv.live (hI : Inv n addr s) (hs : ¬s.Launched n addr) :
    ∃ h < n, Smp.exec n addr h s ≠ s := by
  by_contra hnone
  refine hs (hI.launched_of_waits fun h hh => ?_)
  rcases hI.exec_cases hh with ⟨hwaits, -⟩ | ⟨q, hpc, hq⟩
  · exact hwaits
  · have hsame : Smp.exec n addr h s = s := by
      by_contra hmoves
      exact hnone ⟨h, hh, hmoves⟩
    have hless := rank_lt hh hpc hq
    rw [hsame] at hless
    exact absurd hless (lt_irrefl _)

/-- Whoever has jumped stays there. -/
theorem exec_launched (hs : s.Launched n addr) (hh : h < n) : Smp.exec n addr h s = s := by
  rw [Smp.exec, hs h hh]

theorem progress (n : ℕ) (addr : BitVec 64) :
    Progress (· < n) (exec n addr) (Inv n addr) (State.Launched n addr) (State.rank n) where
  keeps _ _ hh hI := hI.exec hh
  stays _ _ hh _ hs := by rwa [exec_launched hs hh]
  descends _ _ hh hI := hI.descends hh
  live _ hI hs := hI.live hs

end Cheshire.Smp
