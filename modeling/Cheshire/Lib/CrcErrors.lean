import Cheshire.Lib.Crc

/-!
# The errors that a CRC detects

A message and its checksum leave the register at 0 (`crcFrom_codeword`). The register is linear,
so that errors go unnoticed only if the register takes their pattern to 0. Then the generator
divides the polynomial of the pattern.

A generator of degree `n` with constant coefficient 1 detects all bursts of at most `n` bits
(`crcFrom_burst_ne_zero`). If 1 is a root, it detects every odd number of errors
(`crcFrom_odd_ne_zero`), and for messages shorter than the order of `X`, every two errors
(`crcFrom_two_ne_zero`).
-/

namespace Lib

open Polynomial

variable {n : ℕ} {g : BitVec n}

/-! ## Linearity -/

/-- The bits of `l`, flipped where `e` has ones. -/
def flips (l e : List Bool) : List Bool := List.zipWith xor l e

theorem crcFrom_flips (g s t : BitVec n) {l e : List Bool} (h : l.length = e.length) :
    crcFrom g (s ^^^ t) (flips l e) = crcFrom g s l ^^^ crcFrom g t e := by
  induction l generalizing s t e with
  | nil =>
    obtain rfl : e = [] := List.length_eq_zero_iff.1 h.symm
    rfl
  | cons a l ih =>
    obtain ⟨b, e, rfl⟩ := List.exists_cons_of_length_eq_add_one h.symm
    have hstep : crcFrom g (s ^^^ t) (flips (a :: l) (b :: e)) =
        crcFrom g (crcShift g (s ^^^ t) (a ^^ b)) (flips l e) := rfl
    rw [hstep, crcShift_xor, ih _ _ (Nat.succ.inj h)]
    rfl

/-- A message and its checksum. -/
theorem crcFrom_codeword (g s : BitVec n) (l : List Bool) :
    crcFrom g s (l ++ bits (crcFrom g s l)) = 0 := by
  have hzero (v : BitVec n) : crcFrom g v (bits v) = 0 := by
    have hxor := crcFrom_bits_xor g v v
    rw [BitVec.xor_self, BitVec.xor_self] at hxor
    rw [crcFrom_bits g v v le_rfl, BitVec.setWidth_eq, Nat.sub_self, BitVec.shiftLeft_zero,
      BitVec.xor_self, hxor]
    rfl
  rw [crcFrom_append, hzero]

/-! ## Patterns as polynomials -/

theorem msgPoly_append (l l' : List Bool) :
    msgPoly (l ++ l') = msgPoly l * X ^ l'.length + msgPoly l' := by
  induction l' using List.reverseRecOn with
  | nil => simp [msgPoly]
  | append_singleton l' b ih =>
    rw [← List.append_assoc, msgPoly_concat, msgPoly_concat, ih, List.length_append,
      List.length_singleton]
    ring

theorem msgPoly_replicate_false (k : ℕ) : msgPoly (List.replicate k false) = 0 := by
  induction k with
  | zero => rfl
  | succ k ih =>
    rw [List.replicate_succ', msgPoly_concat, ih]
    simp [bit]

theorem msgPoly_one_cons (l : List Bool) : msgPoly (true :: l) = X ^ l.length + msgPoly l := by
  have hone : msgPoly [true] = 1 := by simp [msgPoly, bit]
  rw [← List.singleton_append, msgPoly_append, hone, one_mul]

/-- The number of ones, modulo 2. -/
theorem eval_one_msgPoly (l : List Bool) : (msgPoly l).eval 1 = (l.count true : ZMod 2) := by
  induction l using List.reverseRecOn with
  | nil => simp [msgPoly]
  | append_singleton l b ih =>
    rw [msgPoly_concat, eval_add, eval_mul, eval_X, one_mul, ih, List.count_append]
    cases b <;> simp [bit]

theorem degree_msgPoly_lt (l : List Bool) : (msgPoly l).degree < l.length := by
  induction l using List.reverseRecOn with
  | nil => simp [msgPoly]
  | append_singleton l b ih =>
    rw [degree_lt_iff_coeff_zero] at ih ⊢
    intro k hk
    rw [List.length_append, List.length_singleton] at hk
    obtain ⟨k, rfl⟩ := Nat.exists_eq_add_of_le' (show 1 ≤ k by omega)
    have hbit : (bit b).coeff (k + 1) = 0 := by
      cases b <;> simp [bit, coeff_one]
    rw [msgPoly_concat, coeff_add, coeff_X_mul, ih k (by omega), hbit, add_zero]

theorem msgPoly_ne_zero {l : List Bool} (h : true ∈ l) : msgPoly l ≠ 0 := by
  induction l using List.reverseRecOn with
  | nil => exact absurd h List.not_mem_nil
  | append_singleton l b ih =>
    intro hzero
    rw [msgPoly_concat] at hzero
    have hlast := congrArg (coeff · 0) hzero
    simp only [coeff_add, coeff_X_mul_zero, zero_add, coeff_zero] at hlast
    cases b with
    | true => simp [bit] at hlast
    | false =>
      have hl : true ∈ l := by simpa using h
      have hmul : X * msgPoly l = 0 := by simpa [bit] using hzero
      exact ih hl ((mul_eq_zero.1 hmul).resolve_left X_ne_zero)

/-! ## Undetected patterns -/

section Undetected

variable {e : List Bool}

theorem isCoprime_X_genPoly (hn : 0 < n) (hg : g.getLsbD 0 = true) :
    IsCoprime (genPoly g) X := by
  refine ((prime_X.coprime_iff_not_dvd).2 fun hdvd => ?_).symm
  have hcoeff := X_dvd_iff.1 hdvd
  rw [genPoly, coeff_add, coeff_X_pow, if_neg hn.ne, coeff_wordPoly, hg] at hcoeff
  simp at hcoeff

/-- The generator divides a pattern that goes unnoticed. -/
theorem genPoly_dvd_msgPoly (hn : 0 < n) (hg : g.getLsbD 0 = true) (h : crcFrom g 0 e = 0) :
    genPoly g ∣ msgPoly e := by
  have hword := wordPoly_crcFrom g 0 e
  rw [h, wordPoly_zero, zero_mul, zero_add] at hword
  have hdvd := (modByMonic_eq_zero_iff_dvd (genPoly_monic g)).1 hword.symm
  exact ((isCoprime_X_genPoly hn hg).pow_right).dvd_of_dvd_mul_right hdvd

/-- The ones of the pattern are all among `k` bits in a row. -/
def IsBurst (k : ℕ) (e : List Bool) : Prop :=
  ∃ a, ∀ i (h : i < e.length), e[i] = true → a ≤ i ∧ i < a + k

/-- The ones of the pattern and the zeros around them. -/
theorem IsBurst.split {k : ℕ} (h : IsBurst k e) : ∃ a w b, w.length ≤ k ∧
    e = List.replicate a false ++ w ++ List.replicate b false := by
  obtain ⟨a, h⟩ := h
  have hzeros (l : List Bool) (hl : ∀ b ∈ l, b = false) : ∃ j, l = List.replicate j false :=
    ⟨l.length, List.eq_replicate_iff.2 ⟨rfl, hl⟩⟩
  obtain ⟨i, hi⟩ := hzeros (e.take a) fun b hb => by
    obtain ⟨j, hj, rfl⟩ := List.getElem_of_mem hb
    rw [List.length_take] at hj
    rw [List.getElem_take]
    refine Bool.eq_false_iff.2 fun hone => ?_
    have hle := (h j (by omega) hone).1
    omega
  obtain ⟨j, hj⟩ := hzeros (e.drop (a + k)) fun b hb => by
    obtain ⟨j, hj, rfl⟩ := List.getElem_of_mem hb
    rw [List.length_drop] at hj
    rw [List.getElem_drop]
    refine Bool.eq_false_iff.2 fun hone => ?_
    have hlt := (h (a + k + j) (by omega) hone).2
    omega
  refine ⟨i, (e.drop a).take k, j, List.length_take_le _ _, ?_⟩
  rw [← hi, ← hj, List.append_assoc, ← List.drop_drop, List.take_append_drop,
    List.take_append_drop]

/-- No burst that fits the register goes unnoticed. -/
theorem crcFrom_burst_ne_zero (hn : 0 < n) (hg : g.getLsbD 0 = true) (hone : true ∈ e)
    (hburst : IsBurst n e) : crcFrom g 0 e ≠ 0 := by
  intro hzero
  obtain ⟨a, w, b, hw, rfl⟩ := hburst.split
  have hdvd := genPoly_dvd_msgPoly hn hg hzero
  rw [msgPoly_append, msgPoly_append, msgPoly_replicate_false, msgPoly_replicate_false, zero_mul,
    zero_add, add_zero] at hdvd
  have hdvd := ((isCoprime_X_genPoly hn hg).pow_right).dvd_of_dvd_mul_right hdvd
  have hmem : true ∈ w := by simpa using hone
  have hdeg := degree_le_of_dvd hdvd (msgPoly_ne_zero hmem)
  rw [degree_genPoly] at hdeg
  have hlt := hdeg.trans_lt (degree_msgPoly_lt w)
  rw [Nat.cast_lt] at hlt
  omega

/-- No odd number of errors goes unnoticed if `X + 1` divides the generator. -/
theorem crcFrom_odd_ne_zero (hn : 0 < n) (hg : g.getLsbD 0 = true)
    (hroot : (genPoly g).eval 1 = 0) (hodd : e.count true % 2 = 1) : crcFrom g 0 e ≠ 0 := by
  intro hzero
  obtain ⟨q, hq⟩ := genPoly_dvd_msgPoly hn hg hzero
  have heval := eval_one_msgPoly e
  rw [hq, eval_mul, hroot, zero_mul] at heval
  have heven := (ZMod.natCast_eq_zero_iff _ _).1 heval.symm
  omega

theorem count_split {m : ℕ} {e : List Bool} (h : e.count true = m + 1) :
    ∃ a e', e = List.replicate a false ++ true :: e' ∧ e'.count true = m := by
  induction e with
  | nil => exact absurd h (by simp)
  | cons b e ih =>
    cases b with
    | true => exact ⟨0, e, rfl, by simpa using h⟩
    | false =>
      obtain ⟨a, e', rfl, hcount⟩ := ih (by simpa using h)
      exact ⟨a + 1, e', rfl, hcount⟩

/-- `X ^ k` leaves the remainder that the register has after `k` more zeros. -/
theorem wordPoly_crcFrom_one (hn : 0 < n) (g : BitVec n) (k : ℕ) :
    wordPoly (crcFrom g 1#n (List.replicate k false)) = X ^ k %ₘ genPoly g := by
  have hone : wordPoly 1#n = 1 := by
    ext k
    rw [coeff_wordPoly, coeff_one, BitVec.getLsbD_one]
    by_cases hk : k = 0 <;> simp [hk, hn]
  rw [wordPoly_crcFrom, hone, msgPoly_replicate_false, one_mul, zero_mul, add_zero,
    List.length_replicate]

/-- No two errors go unnoticed that are closer than the order of `X`. -/
theorem crcFrom_two_ne_zero (hn : 0 < n) (hg : g.getLsbD 0 = true)
    (horder : ∀ k, 0 < k → k < e.length → crcFrom g 1#n (List.replicate k false) ≠ 1#n)
    (htwo : e.count true = 2) : crcFrom g 0 e ≠ 0 := by
  intro hzero
  obtain ⟨a, e₁, rfl, hone⟩ := count_split htwo
  obtain ⟨k, e₂, rfl, hnone⟩ := count_split hone
  have hrest : msgPoly e₂ = 0 := by
    have hzeros : e₂ = List.replicate e₂.length false := by
      refine List.eq_replicate_iff.2 ⟨rfl, fun b hb => Bool.eq_false_iff.2 fun hb' => ?_⟩
      exact List.count_eq_zero.1 hnone (hb' ▸ hb)
    rw [hzeros]
    exact msgPoly_replicate_false _
  have hdvd := genPoly_dvd_msgPoly hn hg hzero
  rw [msgPoly_append, msgPoly_replicate_false, zero_mul, zero_add, msgPoly_one_cons,
    msgPoly_append, msgPoly_replicate_false, zero_mul, zero_add, msgPoly_one_cons, hrest,
    add_zero, List.length_append, List.length_replicate, List.length_cons] at hdvd
  have hfactor : (X : (ZMod 2)[X]) ^ (k + (e₂.length + 1)) + X ^ e₂.length =
      (X ^ (k + 1) - 1) * X ^ e₂.length := by
    rw [CharTwo.sub_eq_add]
    ring
  rw [hfactor] at hdvd
  have hdvd := ((isCoprime_X_genPoly hn hg).pow_right).dvd_of_dvd_mul_right hdvd
  refine horder (k + 1) (Nat.succ_pos k) ?_ (wordPoly_injective ?_)
  · simp only [List.length_append, List.length_replicate, List.length_cons]
    omega
  · have hself := wordPoly_crcFrom_one hn g 0
    rw [wordPoly_crcFrom_one hn]
    rw [pow_zero] at hself
    rw [modByMonic_eq_of_dvd_sub (genPoly_monic g) hdvd, ← hself]
    rfl

end Undetected

end Lib
