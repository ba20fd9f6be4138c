import Cheshire.Lib.Riscv
import Mathlib.Data.List.Nodup

/-!
# Registers kept in a stack frame

A block of stores keeps registers in slots above the stack pointer (`saveOps`); a block of loads
takes them back (`loadOps`). `saved` says what the stores do, `loaded` what the loads do, and
`loaded_saved` that the loads give back what the stores kept, if nothing else writes the frame.
-/

namespace Lib.Riscv

/-- A register, and the offset of its slot. -/
abbrev Slot := Reg × ℕ

def saveOps (l : List Slot) : List Op := l.map fun p => .sd p.1 (BitVec.ofNat 64 p.2) sp

def loadOps (l : List Slot) : List Op := l.map fun p => .ld p.1 (BitVec.ofNat 64 p.2) sp

/-- The slots lie in `n` bytes and do not overlap. Each is for another register, none of them for
the stack pointer or register 0. -/
structure Layout (n : ℕ) (l : List Slot) : Prop where
  fits : ∀ p ∈ l, p.2 + 8 ≤ n
  apart : l.Pairwise fun p q => p.2 + 8 ≤ q.2 ∨ q.2 + 8 ≤ p.2
  regs : (l.map Prod.fst).Nodup
  plain : ∀ p ∈ l, p.1 ≠ sp ∧ p.1 ≠ zero

section Spill

open Placed

variable {n : ℕ} {l : List Slot} {p : Slot} {s s₁ s₂ : State}

theorem Layout.tail (h : Layout n (p :: l)) : Layout n l where
  fits q hq := h.fits q (List.mem_cons_of_mem p hq)
  apart := (List.pairwise_cons.1 h.apart).2
  regs := (List.nodup_cons.1 h.regs).2
  plain q hq := h.plain q (List.mem_cons_of_mem p hq)

theorem get_plain {r : Reg} (s : State) (h : r ≠ zero) : s.get r = s.x r := if_neg h

/-! ## Stores -/

/-- Stores of registers change nothing but memory. -/
theorem saveOps_frame (l : List Slot) (s : State) :
    (runOps s (saveOps l)).x = s.x ∧ (runOps s (saveOps l)).f = s.f ∧
      (runOps s (saveOps l)).csr = s.csr ∧ (runOps s (saveOps l)).pc = s.pc := by
  induction l generalizing s with
  | nil => exact ⟨rfl, rfl, rfl, rfl⟩
  | cons p l ih => exact ih (Op.run s (.sd p.1 (BitVec.ofNat 64 p.2) sp))

theorem store_slot (s : State) (r : Reg) {j k : ℕ} (hj : j < 2 ^ 64) (hk : k + 8 ≤ 2 ^ 64) :
    (Op.run s (.sd r (BitVec.ofNat 64 k) sp)).mem (s.x sp + BitVec.ofNat 64 j) =
      if k ≤ j ∧ j < k + 8 then byteOf (s.get r).toNat (j - k)
      else s.mem (s.x sp + BitVec.ofNat 64 j) := Mem.write_offset hj hk

/-- Bytes outside the slots stay. -/
theorem saveOps_outside {j : ℕ} (hj : j < 2 ^ 64) (hl : ∀ p ∈ l, p.2 + 8 ≤ 2 ^ 64)
    (hout : ∀ p ∈ l, ¬(p.2 ≤ j ∧ j < p.2 + 8)) (s : State) :
    (runOps s (saveOps l)).mem (s.x sp + BitVec.ofNat 64 j) =
      s.mem (s.x sp + BitVec.ofNat 64 j) := by
  induction l generalizing s with
  | nil => rfl
  | cons p l ih =>
    have hrest := ih (fun q hq => hl q (List.mem_cons_of_mem p hq))
      (fun q hq => hout q (List.mem_cons_of_mem p hq))
      (Op.run s (.sd p.1 (BitVec.ofNat 64 p.2) sp))
    refine hrest.trans ((store_slot s p.1 hj (hl p List.mem_cons_self)).trans ?_)
    exact if_neg (hout p List.mem_cons_self)

theorem saveOps_mem (h : Layout n l) (hn : n ≤ 2 ^ 64) (s : State) {a : XWord}
    (ha : n ≤ (a - s.x sp).toNat) : (runOps s (saveOps l)).mem a = s.mem a := by
  have haddr : s.x sp + BitVec.ofNat 64 (a - s.x sp).toNat = a := by
    rw [BitVec.ofNat_toNat, BitVec.setWidth_eq, BitVec.add_comm, BitVec.sub_add_cancel]
  have hkept := saveOps_outside (a - s.x sp).isLt (fun p hp => (h.fits p hp).trans hn)
    (fun p hp => by
      have hfit := h.fits p hp
      omega) s
  rw [haddr] at hkept
  exact hkept

/-- Every slot has its register. -/
theorem saved (h : Layout n l) (hn : n ≤ 2 ^ 64) (s : State) (hp : p ∈ l) {i : ℕ} (hi : i < 8) :
    (runOps s (saveOps l)).mem (s.x sp + BitVec.ofNat 64 (p.2 + i)) =
      byteOf (s.x p.1).toNat i := by
  induction l generalizing s with
  | nil => exact absurd hp List.not_mem_nil
  | cons q l ih =>
    have hfit := h.fits p hp
    rcases List.mem_cons.1 hp with rfl | hp
    · have hrest := saveOps_outside (l := l) (j := p.2 + i) (by omega)
        (fun q hq => (h.tail.fits q hq).trans hn)
        (fun q hq => by
          have hapart := (List.pairwise_cons.1 h.apart).1 q hq
          omega)
        (Op.run s (.sd p.1 (BitVec.ofNat 64 p.2) sp))
      refine hrest.trans ((store_slot s p.1 (by omega) (by omega)).trans ?_)
      rw [if_pos (by omega), Nat.add_sub_cancel_left, get_plain s (h.plain p List.mem_cons_self).2]
    · exact ih h.tail _ hp

/-! ## Loads -/

/-- Loads of registers change nothing but those registers. -/
theorem loadOps_frame (l : List Slot) (s : State) :
    (runOps s (loadOps l)).mem = s.mem ∧ (runOps s (loadOps l)).f = s.f ∧
      (runOps s (loadOps l)).csr = s.csr ∧ (runOps s (loadOps l)).pc = s.pc := by
  induction l generalizing s with
  | nil => exact ⟨rfl, rfl, rfl, rfl⟩
  | cons p l ih => exact ih (Op.run s (.ld p.1 (BitVec.ofNat 64 p.2) sp))

theorem loadOps_other {r : Reg} (hr : r ∉ l.map Prod.fst) (s : State) :
    (runOps s (loadOps l)).x r = s.x r := by
  induction l generalizing s with
  | nil => rfl
  | cons p l ih =>
    rw [List.map_cons, List.mem_cons, not_or] at hr
    exact (ih hr.2 _).trans (Function.update_of_ne hr.1 _ _)

/-- Every register has its slot. -/
theorem loaded (h : Layout n l) (s : State) (hp : p ∈ l) :
    (runOps s (loadOps l)).x p.1 =
      BitVec.ofNat 64 (s.load 8 (s.x sp + BitVec.ofNat 64 p.2)) := by
  induction l generalizing s with
  | nil => exact absurd hp List.not_mem_nil
  | cons q l ih =>
    have hsp : (Op.run s (.ld q.1 (BitVec.ofNat 64 q.2) sp)).x sp = s.x sp :=
      Function.update_of_ne (h.plain q List.mem_cons_self).1.symm _ _
    rcases List.mem_cons.1 hp with rfl | hp
    · exact (loadOps_other (List.nodup_cons.1 h.regs).1 _).trans (Function.update_self _ _ _)
    · have hrest := ih h.tail (Op.run s (.ld q.1 (BitVec.ofNat 64 q.2) sp)) hp
      rw [hsp] at hrest
      exact hrest

/-- **Main result.** If the frame is in `s₂` as the stores in `s` left it, the loads in `s₂` give
the registers the values they had in `s`. -/
theorem loaded_saved (h : Layout n l) (hn : n ≤ 2 ^ 64) (hsp : s₂.x sp = s.x sp)
    (hframe : ∀ i < n, s₂.mem (s.x sp + BitVec.ofNat 64 i) =
      (runOps s (saveOps l)).mem (s.x sp + BitVec.ofNat 64 i)) (hp : p ∈ l) :
    (runOps s₂ (loadOps l)).x p.1 = s.x p.1 := by
  have hfit := h.fits p hp
  have hslot : s₂.load 8 (s₂.x sp + BitVec.ofNat 64 p.2) = le 8 (byteOf (s.x p.1).toNat) := by
    refine le_congr fun i hi => ?_
    rw [hsp, BitVec.add_assoc, ← BitVec.ofNat_add, hframe _ (by omega), saved h hn s hp hi]
  rw [loaded h s₂ hp, hslot, le_byteOf,
    Nat.mod_eq_of_lt (show (s.x p.1).toNat < 256 ^ 8 from (s.x p.1).isLt), BitVec.ofNat_toNat,
    BitVec.setWidth_eq]

end Spill

end Lib.Riscv
