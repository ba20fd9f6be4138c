import Mathlib.Data.Nat.Init
import Mathlib.Tactic.Linarith

/-!
# Bytes, little-endian numbers, and memory

`le n f` is the number that the bytes `f 0`, ..., `f (n - 1)` spell, lowest byte first, and
`byteOf x i` is the `i`-th byte of `x`. Memory is a function from 64-bit addresses to bytes; the
range of a write may wrap around the end of the address space.
-/

namespace Lib

abbrev Byte := BitVec 8

/-! ## Little-endian numbers -/

def le : ℕ → (ℕ → Byte) → ℕ
  | 0, _ => 0
  | n + 1, f => (f 0).toNat + 256 * le n fun i => f (i + 1)

def byteOf (x i : ℕ) : Byte := BitVec.ofNat 8 (x / 256 ^ i)

theorem le_congr {n : ℕ} {f g : ℕ → Byte} (h : ∀ i < n, f i = g i) : le n f = le n g := by
  induction n generalizing f g with
  | zero => rfl
  | succ n ih =>
    have hrest : (le n fun i => f (i + 1)) = le n fun i => g (i + 1) :=
      ih fun i hi => h (i + 1) (by omega)
    rw [le, le, h 0 (by omega), hrest]

/-- The bytes of `x` spell `x`, as far as they reach. -/
theorem le_byteOf (n x : ℕ) : le n (byteOf x) = x % 256 ^ n := by
  induction n generalizing x with
  | zero => rw [le, pow_zero, Nat.mod_one]
  | succ n ih =>
    have hshift : (fun i => byteOf x (i + 1)) = byteOf (x / 256) := by
      funext i
      rw [byteOf, byteOf, Nat.div_div_eq_div_mul, pow_succ, Nat.mul_comm 256]
    have hlow : (byteOf x 0).toNat = x % 256 := by simp [byteOf]
    rw [le, hshift, ih, hlow, pow_succ, Nat.mul_comm (256 ^ n), Nat.mod_mul]

/-- A word is what its bytes spell. -/
theorem ofNat_le_bytes {w n : ℕ} (hw : w = 8 * n) (x : BitVec w) :
    BitVec.ofNat w (le n fun i => ((List.range n).map (byteOf x.toNat)).getD i 0) = x := by
  have hbytes : ∀ i < n, ((List.range n).map (byteOf x.toNat)).getD i 0 = byteOf x.toNat i := by
    intro i hi
    rw [List.getD_eq_getElem?_getD, List.getElem?_map, List.getElem?_range hi]
    rfl
  have hpow : 2 ^ w = 256 ^ n := by rw [hw, pow_mul, show 2 ^ 8 = 256 from rfl]
  have hlt : x.toNat < 256 ^ n := x.isLt.trans_eq hpow
  rw [le_congr hbytes, le_byteOf, Nat.mod_eq_of_lt hlt, BitVec.ofNat_toNat, BitVec.setWidth_eq]

theorem le_lt (n : ℕ) (f : ℕ → Byte) : le n f < 256 ^ n := by
  induction n generalizing f with
  | zero => exact Nat.one_pos
  | succ n ih =>
    have hf := (f 0).isLt
    have hrest := ih fun i => f (i + 1)
    rw [le, pow_succ]
    omega

/-- A number spells its bytes. -/
theorem le_inj {n : ℕ} {f g : ℕ → Byte} : le n f = le n g ↔ ∀ i < n, f i = g i := by
  refine ⟨fun h => ?_, le_congr⟩
  induction n generalizing f g with
  | zero => exact fun i hi => absurd hi (Nat.not_lt_zero i)
  | succ n ih =>
    rw [le, le] at h
    have hf := (f 0).isLt
    have hg := (g 0).isLt
    have hlow : (f 0).toNat = (g 0).toNat := by omega
    have hrest := ih (show (le n fun i => f (i + 1)) = le n fun i => g (i + 1) by omega)
    intro i hi
    cases i with
    | zero => exact BitVec.eq_of_toNat_eq hlow
    | succ i => exact hrest i (by omega)

/-- The low bytes of a number. -/
theorem le_mod {n k : ℕ} (h : k ≤ n) (f : ℕ → Byte) : le n f % 256 ^ k = le k f := by
  induction k generalizing n f with
  | zero => rw [pow_zero, Nat.mod_one, le]
  | succ k ih =>
    obtain ⟨n, rfl⟩ := Nat.exists_eq_add_of_le' (show 1 ≤ n by omega)
    have hf := (f 0).isLt
    have hdiv : ((f 0).toNat + 256 * le n fun i => f (i + 1)) / 256 = le n fun i => f (i + 1) := by
      omega
    rw [le, le, pow_succ, Nat.mul_comm (256 ^ k), Nat.mod_mul, hdiv,
      ih (show k ≤ n by omega)]
    omega

/-! ## Bytes of words -/

section Words

variable {w : ℕ} (x y : BitVec w) (i k : ℕ)

theorem getLsbD_byteOf {j : ℕ} (hj : j < 8) :
    (byteOf x.toNat i).getLsbD j = x.getLsbD (8 * i + j) := by
  have h256 : 256 ^ i = 2 ^ (8 * i) := by rw [pow_mul]; norm_num
  rw [byteOf, h256, BitVec.getLsbD_ofNat, Nat.testBit_div_two_pow, Nat.add_comm, decide_eq_true hj,
    Bool.true_and]
  rfl

theorem byteOf_or : byteOf (x ||| y).toNat i = byteOf x.toNat i ||| byteOf y.toNat i := by
  refine BitVec.eq_of_getLsbD_eq fun j hj => ?_
  rw [BitVec.getLsbD_or, getLsbD_byteOf _ _ hj, getLsbD_byteOf _ _ hj, getLsbD_byteOf _ _ hj,
    BitVec.getLsbD_or]

theorem byteOf_ushiftRight : byteOf (x >>> (8 * k)).toNat i = byteOf x.toNat (i + k) := by
  refine BitVec.eq_of_getLsbD_eq fun j hj => ?_
  rw [getLsbD_byteOf _ _ hj, getLsbD_byteOf _ _ hj, BitVec.getLsbD_ushiftRight]
  congr 1
  omega

theorem byteOf_shiftLeft (hi : 8 * i + 8 ≤ w) :
    byteOf (x <<< (8 * k)).toNat i = if i < k then 0 else byteOf x.toNat (i - k) := by
  refine BitVec.eq_of_getLsbD_eq fun j hj => ?_
  rw [getLsbD_byteOf _ _ hj, BitVec.getLsbD_shiftLeft, decide_eq_true (by omega), Bool.true_and]
  by_cases hik : i < k
  · rw [if_pos hik, decide_eq_true (by omega)]
    simp
  · rw [if_neg hik, decide_eq_false (by omega), getLsbD_byteOf _ _ hj]
    show _ = x.getLsbD _
    rw [Bool.not_false, Bool.true_and]
    congr 1
    omega

theorem byteOf_setWidth {v : ℕ} (hi : 8 * i + 8 ≤ v) :
    byteOf (x.setWidth v).toNat i = byteOf x.toNat i := by
  refine BitVec.eq_of_getLsbD_eq fun j hj => ?_
  rw [getLsbD_byteOf _ _ hj, getLsbD_byteOf _ _ hj, BitVec.getLsbD_setWidth,
    decide_eq_true (by omega), Bool.true_and]

theorem byteOf_append {v w k : ℕ} (x : BitVec v) (y : BitVec w) (hw : w = 8 * k) (i : ℕ) :
    byteOf (x ++ y).toNat i = if i < k then byteOf y.toNat i else byteOf x.toNat (i - k) := by
  refine BitVec.eq_of_getLsbD_eq fun j hj => ?_
  rw [getLsbD_byteOf _ _ hj, BitVec.getLsbD_append]
  by_cases hi : i < k
  · rw [if_pos hi, getLsbD_byteOf _ _ hj, if_pos (by omega)]
  · have hsub : 8 * i + j - w = 8 * (i - k) + j := by omega
    rw [if_neg hi, getLsbD_byteOf _ _ hj, if_neg (by omega), hsub]

theorem byteOf_byte (b : Byte) : byteOf b.toNat 0 = b := by
  rw [byteOf, pow_zero, Nat.div_one, BitVec.ofNat_toNat, BitVec.setWidth_eq]

theorem byteOf_eq_zero {n i : ℕ} (h : n < 256 ^ i) : byteOf n i = 0#8 := by
  rw [byteOf, Nat.div_eq_of_lt h]

/-- A byte of one word moved to another place. -/
theorem byteOf_field (a : BitVec 64) (r k : ℕ) {i : ℕ} (hi : i < 8) :
    byteOf ((a >>> (8 * r) &&& 0xFF) <<< (8 * k)).toNat i =
      if i = k then byteOf a.toNat r else 0#8 := by
  have hff : (0xFF : BitVec 64).toNat = 2 ^ 8 - 1 := rfl
  rw [byteOf_shiftLeft _ _ _ (by omega), BitVec.toNat_and, hff, Nat.and_two_pow_sub_one_eq_mod]
  have hlow : byteOf ((a >>> (8 * r)).toNat % 2 ^ 8) 0 = byteOf a.toNat r := by
    rw [← Nat.zero_add r, ← byteOf_ushiftRight, Nat.zero_add]
    refine BitVec.eq_of_toNat_eq ?_
    simp [byteOf]
  have hlt : (a >>> (8 * r)).toNat % 2 ^ 8 < 2 ^ 8 := Nat.mod_lt _ (by decide)
  rcases Nat.lt_trichotomy i k with h | rfl | h
  · rw [if_pos h, if_neg h.ne]
    rfl
  · rw [if_neg (lt_irrefl _), if_pos rfl, Nat.sub_self, hlow]
  · rw [if_neg h.not_gt, if_neg h.ne', byteOf_eq_zero]
    exact hlt.trans_le (Nat.pow_le_pow_right (n := 256) (by decide) (Nat.sub_pos_of_lt h))

end Words

/-! ## Memory -/

abbrev Mem := BitVec 64 → Byte

/-- Store `f 0`, ..., `f (n - 1)` from address `a` on. -/
def Mem.write (m : Mem) (a : BitVec 64) (n : ℕ) (f : ℕ → Byte) : Mem := fun x =>
  if (x - a).toNat < n then f (x - a).toNat else m x

namespace Mem

variable {m : Mem} {a x : BitVec 64} {n : ℕ} {f : ℕ → Byte}

theorem write_zero : m.write a 0 f = m := by
  funext x
  simp [write]

/-- A write leaves the addresses outside its range alone. -/
theorem write_frame (h : n ≤ (x - a).toNat) : m.write a n f x = m x :=
  if_neg (Nat.not_lt.2 h)

/-- What was written is what is read back. -/
theorem write_read {i : ℕ} (hi : i < n) (hn : n ≤ 2 ^ 64) :
    m.write a n f (a + BitVec.ofNat 64 i) = f i := by
  have hoff : (a + BitVec.ofNat 64 i - a).toNat = i := by
    rw [BitVec.add_comm, BitVec.add_sub_cancel, BitVec.toNat_ofNat, Nat.mod_eq_of_lt (by omega)]
  rw [write, if_pos (by rw [hoff]; exact hi), hoff]

/-- A write and a read at distances from one address. -/
theorem write_offset {j k : ℕ} (hj : j < 2 ^ 64) (hk : k + n ≤ 2 ^ 64) :
    m.write (a + BitVec.ofNat 64 k) n f (a + BitVec.ofNat 64 j) =
      if k ≤ j ∧ j < k + n then f (j - k) else m (a + BitVec.ofNat 64 j) := by
  have ha := a.isLt
  have hoff : (a + BitVec.ofNat 64 j - (a + BitVec.ofNat 64 k)).toNat =
      (2 ^ 64 - k + j) % 2 ^ 64 := by
    simp only [BitVec.toNat_sub, BitVec.toNat_add, BitVec.toNat_ofNat]
    omega
  unfold write
  rw [hoff]
  by_cases hin : k ≤ j ∧ j < k + n
  · have hdist : (2 ^ 64 - k + j) % 2 ^ 64 = j - k := by omega
    rw [if_pos hin, hdist, if_pos (by omega)]
  · rw [if_neg hin, if_neg (by omega)]

/-- Two writes next to each other are one. -/
theorem write_append {k : ℕ} (h : n + k ≤ 2 ^ 64) :
    (m.write a n f).write (a + BitVec.ofNat 64 n) k (fun i => f (n + i)) = m.write a (n + k) f := by
  funext x
  have hx := (x - a).isLt
  have hoff : (x - (a + BitVec.ofNat 64 n)).toNat = (2 ^ 64 - n + (x - a).toNat) % 2 ^ 64 := by
    simp only [BitVec.toNat_sub, BitVec.toNat_add, BitVec.toNat_ofNat]
    omega
  unfold write
  rw [hoff]
  by_cases hlow : (x - a).toNat < n
  · rw [if_neg (by omega), if_pos hlow, if_pos (by omega)]
  · have hsub : (2 ^ 64 - n + (x - a).toNat) % 2 ^ 64 = (x - a).toNat - n := by omega
    rw [hsub, if_neg hlow]
    by_cases hhigh : (x - a).toNat < n + k
    · rw [if_pos (by omega), if_pos hhigh]
      show f (n + ((x - a).toNat - n)) = _
      rw [Nat.add_sub_of_le (Nat.not_lt.1 hlow)]
    · rw [if_neg (by omega), if_neg hhigh]

theorem write_congr {g : ℕ → Byte} (h : ∀ i < n, f i = g i) : m.write a n f = m.write a n g := by
  funext x
  unfold write
  by_cases hx : (x - a).toNat < n
  · rw [if_pos hx, if_pos hx, h _ hx]
  · rw [if_neg hx, if_neg hx]

end Mem

end Lib
