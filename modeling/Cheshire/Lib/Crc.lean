import Mathlib

/-!
# Cyclic redundancy checks

A word of `n` bits is a polynomial over `ZMod 2` of degree less than `n`, with bit `i` the
coefficient of `X ^ i`; a message is read with its first bit as the highest coefficient. The
checksum of a message `m` is the remainder of `m * X ^ n` by the generator.

**Theorem (`wordPoly_crcFrom`).** The shift register computes the remainder, from any state.

A checksum by table lookup feeds each symbol and a linear image of its state into a linear table.
The result is linear in the message, whether the image is the right one or not (`lookupFrom_eq`).
-/

namespace Lib

open Polynomial

variable {n : ℕ}

/-! ## Words as polynomials -/

noncomputable def wordPoly (v : BitVec n) : (ZMod 2)[X] :=
  ∑ i ∈ Finset.range n, if v.getLsbD i then X ^ i else 0

theorem coeff_wordPoly (v : BitVec n) (k : ℕ) :
    (wordPoly v).coeff k = if v.getLsbD k then 1 else 0 := by
  have hterm (i : ℕ) : (if v.getLsbD i then X ^ i else (0 : (ZMod 2)[X])).coeff k =
      if k = i then if v.getLsbD k then 1 else 0 else 0 := by
    by_cases hki : k = i
    · subst hki
      cases v.getLsbD k <;> simp
    · cases v.getLsbD i <;> simp [coeff_X_pow, hki]
  rw [wordPoly, finsetSum_coeff]
  simp only [hterm]
  rw [Finset.sum_ite_eq]
  by_cases hk : k < n
  · rw [if_pos (Finset.mem_range.2 hk)]
  · rw [if_neg fun h => hk (Finset.mem_range.1 h), BitVec.getLsbD_of_ge v k (by omega)]
    simp

/-- A word with the bits in `S`. -/
theorem wordPoly_eq_sum (v : BitVec n) {S : Finset ℕ} (hS : S ⊆ Finset.range n)
    (hv : ∀ i ∈ Finset.range n, v.getLsbD i = decide (i ∈ S)) :
    wordPoly v = ∑ i ∈ S, X ^ i := by
  have hout : ∀ i ∈ Finset.range n, i ∉ S →
      (if v.getLsbD i then X ^ i else (0 : (ZMod 2)[X])) = 0 := by
    intro i hi hnot
    rw [hv i hi, decide_eq_false hnot]
    rfl
  rw [wordPoly, ← Finset.sum_subset hS hout]
  refine Finset.sum_congr rfl fun i hi => ?_
  rw [hv i (hS hi), decide_eq_true hi]
  rfl

theorem wordPoly_injective : Function.Injective (wordPoly (n := n)) := by
  intro v w h
  apply BitVec.eq_of_getLsbD_eq
  intro k _
  have hk : (wordPoly v).coeff k = (wordPoly w).coeff k := by rw [h]
  rw [coeff_wordPoly, coeff_wordPoly] at hk
  cases hv : v.getLsbD k <;> cases hw : w.getLsbD k <;> simp_all

theorem wordPoly_zero : wordPoly (0 : BitVec n) = 0 := by
  ext k
  show (wordPoly (0#n)).coeff k = 0
  rw [coeff_wordPoly, BitVec.getLsbD_zero]
  rfl

theorem wordPoly_xor (v w : BitVec n) : wordPoly (v ^^^ w) = wordPoly v + wordPoly w := by
  ext k
  rw [coeff_add, coeff_wordPoly, coeff_wordPoly, coeff_wordPoly, BitVec.getLsbD_xor]
  cases v.getLsbD k <;> cases w.getLsbD k <;> decide

theorem degree_wordPoly_lt (v : BitVec n) : (wordPoly v).degree < n := by
  rw [degree_lt_iff_coeff_zero]
  intro k hk
  rw [coeff_wordPoly, BitVec.getLsbD_of_ge v k hk]
  rfl

/-- A bit, as a coefficient. -/
noncomputable def bit (b : Bool) : (ZMod 2)[X] := if b then 1 else 0

theorem bit_xor (b c : Bool) : bit (b ^^ c) = bit b + bit c := by
  cases b <;> cases c <;> simp [bit, CharTwo.add_self_eq_zero]

/-- A shift drops the highest bit. -/
theorem X_mul_wordPoly (v : BitVec n) :
    X * wordPoly v = wordPoly (v <<< 1) + bit v.msb * X ^ n := by
  ext k
  have hmsb : (bit v.msb * X ^ n).coeff k = if k = n ∧ v.msb then 1 else 0 := by
    cases v.msb <;> simp [bit, coeff_X_pow]
  rw [coeff_add, coeff_wordPoly, hmsb]
  rw [BitVec.getLsbD_shiftLeft]
  cases k with
  | zero =>
    have hmsb0 : ¬(0 = n ∧ v.msb = true) := by
      intro h
      obtain ⟨rfl, hv⟩ := h
      rw [BitVec.msb_eq_getLsbD_last, BitVec.getLsbD_of_ge v _ (by omega)] at hv
      exact Bool.false_ne_true hv
    rw [if_neg hmsb0]
    simp
  | succ k =>
    rw [coeff_X_mul, coeff_wordPoly]
    rcases lt_trichotomy (k + 1) n with hk | hk | hk
    · have hne : ¬(k + 1 = n ∧ v.msb = true) := fun h => hk.ne h.1
      simp [hk, hne]
    · have htop : v.msb = v.getLsbD k := by
        rw [BitVec.msb_eq_getLsbD_last]
        congr 1
        omega
      simp [hk, htop]
    · have hne : ¬(k + 1 = n ∧ v.msb = true) := fun h => hk.ne' h.1
      rw [BitVec.getLsbD_of_ge v k (by omega), if_neg hne]
      simp [Nat.not_lt.2 hk.le]

/-! ## The shift register -/

/-- The generator, with its leading coefficient, which `g` leaves out. -/
noncomputable def genPoly (g : BitVec n) : (ZMod 2)[X] := X ^ n + wordPoly g

theorem genPoly_monic (g : BitVec n) : (genPoly g).Monic :=
  monic_X_pow_add (degree_wordPoly_lt g)

theorem degree_genPoly (g : BitVec n) : (genPoly g).degree = n := by
  rw [genPoly, degree_add_eq_left_of_degree_lt] <;> rw [degree_X_pow]
  exact degree_wordPoly_lt g

noncomputable def msgPoly (l : List Bool) : (ZMod 2)[X] :=
  l.foldl (fun p b => X * p + bit b) 0

theorem msgPoly_concat (l : List Bool) (b : Bool) :
    msgPoly (l ++ [b]) = X * msgPoly l + bit b := by
  rw [msgPoly, List.foldl_append]
  rfl

/-- One bit enters the register. -/
def crcShift (g s : BitVec n) (b : Bool) : BitVec n :=
  s <<< 1 ^^^ if s.msb ^^ b then g else 0

theorem crcShift_xor (g s t : BitVec n) (a b : Bool) :
    crcShift g (s ^^^ t) (a ^^ b) = crcShift g s a ^^^ crcShift g t b := by
  have hbit : ((s ^^^ t).msb ^^ (a ^^ b)) = ((s.msb ^^ a) ^^ (t.msb ^^ b)) := by
    rw [BitVec.msb_xor]
    cases s.msb <;> cases t.msb <;> cases a <;> cases b <;> rfl
  have hite (c d : Bool) : (if c ^^ d then g else 0) =
      (if c then g else 0) ^^^ (if d then g else 0) := by
    cases c <;> cases d <;> simp
  unfold crcShift
  rw [hbit, hite, BitVec.shiftLeft_xor_distrib]
  ac_rfl

def crcFrom (g s : BitVec n) (l : List Bool) : BitVec n := l.foldl (crcShift g) s

theorem crcFrom_concat (g s : BitVec n) (l : List Bool) (b : Bool) :
    crcFrom g s (l ++ [b]) = crcShift g (crcFrom g s l) b := by
  rw [crcFrom, List.foldl_append]
  rfl

/-- What is shifted out comes back as a multiple of the generator. -/
theorem wordPoly_crcShift (g s : BitVec n) (b : Bool) :
    wordPoly (crcShift g s b) = X * wordPoly s + bit b * X ^ n + bit (s.msb ^^ b) * genPoly g := by
  have hg : wordPoly (if s.msb ^^ b then g else 0) = bit (s.msb ^^ b) * wordPoly g := by
    cases s.msb ^^ b with
    | false => exact wordPoly_zero.trans (zero_mul _).symm
    | true => exact (one_mul _).symm
  rw [crcShift, wordPoly_xor, hg, X_mul_wordPoly, genPoly, bit_xor]
  have htwo : (2 : (ZMod 2)[X]) = 0 := CharTwo.two_eq_zero
  linear_combination (-bit s.msb - bit b) * X ^ n * htwo

/-- The register holds the remainder of the message, and of its own first content, shifted on by
the length of the message. -/
theorem wordPoly_crcFrom (g s : BitVec n) (l : List Bool) :
    wordPoly (crcFrom g s l) = (wordPoly s * X ^ l.length + msgPoly l * X ^ n) %ₘ genPoly g := by
  have hdvd : genPoly g ∣ wordPoly s * X ^ l.length + msgPoly l * X ^ n -
      wordPoly (crcFrom g s l) := by
    induction l using List.reverseRecOn with
    | nil => simp [crcFrom, msgPoly]
    | append_singleton l b ih =>
      have hstep : wordPoly s * X ^ (l ++ [b]).length + msgPoly (l ++ [b]) * X ^ n -
          wordPoly (crcFrom g s (l ++ [b])) =
          X * (wordPoly s * X ^ l.length + msgPoly l * X ^ n - wordPoly (crcFrom g s l)) -
            bit ((crcFrom g s l).msb ^^ b) * genPoly g := by
        rw [crcFrom_concat, wordPoly_crcShift, msgPoly_concat, List.length_append,
          List.length_singleton]
        ring
      rw [hstep]
      exact (ih.mul_left X).sub (dvd_mul_left _ _)
  have hself : wordPoly (crcFrom g s l) %ₘ genPoly g = wordPoly (crcFrom g s l) := by
    rw [modByMonic_eq_self_iff (genPoly_monic g), degree_genPoly]
    exact degree_wordPoly_lt _
  rw [modByMonic_eq_of_dvd_sub (genPoly_monic g) hdvd, hself]

theorem crcFrom_append (g s : BitVec n) (l l' : List Bool) :
    crcFrom g s (l ++ l') = crcFrom g (crcFrom g s l) l' :=
  List.foldl_append

/-- What a bit contributes to the checksum that stands `k` bits before the end. -/
def crcPower (g : BitVec n) : ℕ → BitVec n
  | 0 => g
  | k + 1 => crcShift g (crcPower g k) false

theorem wordPoly_crcPower (g : BitVec n) (k : ℕ) :
    wordPoly (crcPower g k) = X ^ (n + k) %ₘ genPoly g := by
  have hdvd : genPoly g ∣ X ^ (n + k) - wordPoly (crcPower g k) := by
    induction k with
    | zero => exact ⟨1, by rw [crcPower, genPoly, mul_one, CharTwo.sub_eq_add, add_zero]⟩
    | succ k ih =>
      have hstep : X ^ (n + (k + 1)) - wordPoly (crcPower g (k + 1)) =
          X * (X ^ (n + k) - wordPoly (crcPower g k)) -
            bit ((crcPower g k).msb ^^ false) * genPoly g := by
        rw [crcPower, wordPoly_crcShift, show bit false = 0 from rfl]
        ring
      rw [hstep]
      exact (ih.mul_left X).sub (dvd_mul_left _ _)
  have hself : wordPoly (crcPower g k) %ₘ genPoly g = wordPoly (crcPower g k) := by
    rw [modByMonic_eq_self_iff (genPoly_monic g), degree_genPoly]
    exact degree_wordPoly_lt _
  rw [modByMonic_eq_of_dvd_sub (genPoly_monic g) hdvd, hself]

/-! ## Symbols -/

section Symbols

variable {m : ℕ}

/-- The bits of a word, highest first. -/
def bits (v : BitVec m) : List Bool := (List.range m).map v.getMsbD

@[simp] theorem length_bits (v : BitVec m) : (bits v).length = m := by simp [bits]

theorem coeff_msgPoly_bits (v : BitVec m) (k j : ℕ) :
    (msgPoly ((List.range k).map v.getMsbD)).coeff j =
      if j < k ∧ v.getMsbD (k - 1 - j) then 1 else 0 := by
  induction k generalizing j with
  | zero => simp [msgPoly]
  | succ k ih =>
    have hbit : (bit (v.getMsbD k)).coeff j = if j = 0 ∧ v.getMsbD k then 1 else 0 := by
      cases v.getMsbD k <;> simp [bit, coeff_one]
    rw [List.range_succ, List.map_append, List.map_singleton, msgPoly_concat, coeff_add, hbit]
    cases j with
    | zero => simp
    | succ j =>
      rw [coeff_X_mul, ih, show k + 1 - 1 - (j + 1) = k - 1 - j by omega]
      simp

theorem msgPoly_bits (v : BitVec m) : msgPoly (bits v) = wordPoly v := by
  ext j
  rw [bits, coeff_msgPoly_bits, coeff_wordPoly]
  by_cases hj : j < m
  · rw [BitVec.getMsbD_eq_getLsbD, decide_eq_true (by omega), Bool.true_and,
      show m - 1 - (m - 1 - j) = j by omega]
    simp [hj]
  · rw [BitVec.getLsbD_of_ge v j (by omega)]
    simp [hj]

theorem wordPoly_setWidth_shift (s : BitVec n) (h : n ≤ m) :
    wordPoly (s.setWidth m <<< (m - n)) = wordPoly s * X ^ (m - n) := by
  ext j
  rw [coeff_mul_X_pow', coeff_wordPoly, coeff_wordPoly, BitVec.getLsbD_shiftLeft,
    BitVec.getLsbD_setWidth]
  by_cases hj : m - n ≤ j
  · by_cases hjm : j < m
    · have hlt : j - (m - n) < m := by omega
      simp [hj, hjm, hlt]
    · have hge : n ≤ j - (m - n) := by omega
      simp [hj, hjm, BitVec.getLsbD_of_ge s _ hge]
  · simp [hj, Nat.not_le.1 hj]

/-- The register is aligned with the highest bits of the next symbol, if it is not wider. -/
theorem crcFrom_bits (g s : BitVec n) (b : BitVec m) (h : n ≤ m) :
    crcFrom g s (bits b) = crcFrom g 0 (bits (b ^^^ s.setWidth m <<< (m - n))) := by
  apply wordPoly_injective
  have hpow : X ^ m = (X : (ZMod 2)[X]) ^ (m - n) * X ^ n := by
    rw [← pow_add, Nat.sub_add_cancel h]
  rw [wordPoly_crcFrom, wordPoly_crcFrom, length_bits, length_bits, msgPoly_bits, msgPoly_bits,
    wordPoly_xor, wordPoly_setWidth_shift s h, hpow, wordPoly_zero]
  congr 1
  ring

/-- The highest bits of a shifted word, and the others. -/
theorem wordPoly_mul_X_pow (s : BitVec n) (h : m ≤ n) :
    wordPoly s * X ^ m =
      wordPoly (s <<< m) + wordPoly ((s >>> (n - m)).setWidth m) * X ^ n := by
  ext j
  rw [coeff_add, coeff_mul_X_pow', coeff_mul_X_pow', coeff_wordPoly, coeff_wordPoly,
    coeff_wordPoly, BitVec.getLsbD_shiftLeft, BitVec.getLsbD_setWidth, BitVec.getLsbD_ushiftRight]
  by_cases hj : m ≤ j
  · by_cases hjn : j < n
    · simp [hj, hjn, Nat.not_le.2 hjn, Nat.not_lt.2 hj]
    · have hidx : n - m + (j - n) = j - m := by omega
      by_cases hlt : j - n < m
      · simp [hj, hjn, Nat.not_lt.1 hjn, hidx, hlt]
      · simp [hj, hjn, hlt, BitVec.getLsbD_of_ge s (j - m) (by omega)]
  · simp [hj, Nat.not_le.1 hj, show ¬n ≤ j by omega]

/-- If the register is wider, its highest bits meet the next symbol, and the others move up. -/
theorem crcFrom_bits_wide (g s : BitVec n) (b : BitVec m) (h : m ≤ n) :
    crcFrom g s (bits b) =
      crcFrom g 0 (bits (b ^^^ (s >>> (n - m)).setWidth m)) ^^^ s <<< m := by
  apply wordPoly_injective
  have hself : wordPoly (s <<< m) = wordPoly (s <<< m) %ₘ genPoly g := by
    refine ((modByMonic_eq_self_iff (genPoly_monic g)).2 ?_).symm
    rw [degree_genPoly]
    exact degree_wordPoly_lt _
  rw [wordPoly_xor, wordPoly_crcFrom, wordPoly_crcFrom, length_bits, length_bits, msgPoly_bits,
    msgPoly_bits, wordPoly_xor, wordPoly_mul_X_pow s h, wordPoly_zero, hself, ← add_modByMonic,
    ← hself]
  congr 1
  ring

theorem crcFrom_bits_xor (g : BitVec n) (a b : BitVec m) :
    crcFrom g 0 (bits (a ^^^ b)) = crcFrom g 0 (bits a) ^^^ crcFrom g 0 (bits b) := by
  apply wordPoly_injective
  rw [wordPoly_xor, wordPoly_crcFrom, wordPoly_crcFrom, wordPoly_crcFrom, length_bits, length_bits,
    length_bits, msgPoly_bits, msgPoly_bits, msgPoly_bits, wordPoly_xor, ← add_modByMonic,
    wordPoly_zero]
  congr 1
  ring

end Symbols

/-! ## Table lookup -/

section Lookup

variable {w m : ℕ} {table : BitVec m → BitVec w} {feed : BitVec w → BitVec m}

def XorLinear {a b : ℕ} (f : BitVec a → BitVec b) : Prop := ∀ x y, f (x ^^^ y) = f x ^^^ f y

theorem XorLinear.comp {a b c : ℕ} {f : BitVec b → BitVec c} {g : BitVec a → BitVec b}
    (hf : XorLinear f) (hg : XorLinear g) : XorLinear fun x => f (g x) := by
  intro x y
  show f (g (x ^^^ y)) = _
  rw [hg, hf]

theorem XorLinear.map_zero {a b : ℕ} {f : BitVec a → BitVec b} (hf : XorLinear f) : f 0 = 0 := by
  have h := hf 0 0
  rw [BitVec.xor_self, BitVec.xor_self] at h
  exact h

theorem XorLinear.iterate {a : ℕ} {f : BitVec a → BitVec a} (hf : XorLinear f) (k : ℕ) :
    XorLinear f^[k] := by
  induction k with
  | zero => exact fun _ _ => rfl
  | succ k ih => exact ih.comp hf

/-- The words that `f` assigns to the bits of `b`, added up. -/
def bitSum (f : ℕ → BitVec w) (b : BitVec m) : BitVec w :=
  (List.range m).foldr (fun i q => (if b.getLsbD i then f i else 0#w) ^^^ q) 0#w

theorem XorLinear.bitSum {a : ℕ} {F : BitVec w → BitVec a} (hF : XorLinear F) (f : ℕ → BitVec w)
    (b : BitVec m) : F (bitSum f b) = Lib.bitSum (fun i => F (f i)) b := by
  have hzero : F 0#w = 0#a := hF.map_zero
  unfold Lib.bitSum
  induction List.range m with
  | nil => exact hzero
  | cons i l ih =>
    rw [List.foldr_cons, List.foldr_cons, hF, ih]
    cases b.getLsbD i with
    | false => exact congrArg (· ^^^ _) hzero
    | true => rfl

theorem bitSum_xor (f g : ℕ → BitVec w) (b : BitVec m) :
    bitSum f b ^^^ bitSum g b = bitSum (fun i => f i ^^^ g i) b := by
  unfold bitSum
  induction List.range m with
  | nil => exact BitVec.xor_zero
  | cons i l ih =>
    rw [List.foldr_cons, List.foldr_cons, List.foldr_cons, ← ih]
    cases b.getLsbD i with
    | false => simp
    | true =>
      simp only [if_true]
      ac_rfl

theorem bitSum_congr {f g : ℕ → BitVec w} (h : ∀ i < m, f i = g i) (b : BitVec m) :
    bitSum f b = bitSum g b := by
  refine List.foldr_ext _ _ _ fun i hi q => ?_
  rw [h i (List.mem_range.1 hi)]

/-- A word is the sum of its bits. -/
theorem bitSum_twoPow (b : BitVec m) : bitSum (BitVec.twoPow m) b = b := by
  have hbits (l : List ℕ) (hl : l.Nodup) (k : ℕ) :
      (l.foldr (fun i q => (if b.getLsbD i then BitVec.twoPow m i else 0#m) ^^^ q) 0#m).getLsbD k =
        (decide (k ∈ l) && b.getLsbD k) := by
    induction l with
    | nil => simp
    | cons i l ih =>
      obtain ⟨hi, hl⟩ := List.nodup_cons.1 hl
      rw [List.foldr_cons, BitVec.getLsbD_xor, ih hl]
      by_cases hk : k = i
      · subst hk
        cases hb : b.getLsbD k with
        | false => simp
        | true => simp [hi, BitVec.lt_of_getLsbD hb]
      · cases b.getLsbD i <;> simp [hk, Ne.symm hk]
  refine BitVec.eq_of_getLsbD_eq fun k hk => ?_
  rw [bitSum, hbits _ List.nodup_range, decide_eq_true (List.mem_range.2 hk), Bool.true_and]

/-- What a linear function does follows from what it does to single bits. -/
theorem XorLinear.eq_bitSum {F : BitVec m → BitVec w} (hF : XorLinear F) (b : BitVec m) :
    F b = Lib.bitSum (fun i => F (BitVec.twoPow m i)) b := by
  rw [← hF.bitSum, bitSum_twoPow]

theorem XorLinear.eq_of_bits {F G : BitVec m → BitVec w} (hF : XorLinear F) (hG : XorLinear G)
    (h : ∀ i < m, F (BitVec.twoPow m i) = G (BitVec.twoPow m i)) (b : BitVec m) : F b = G b := by
  rw [hF.eq_bitSum, hG.eq_bitSum]
  exact bitSum_congr h b

theorem wordPoly_twoPow {i : ℕ} (hi : i < m) : wordPoly (BitVec.twoPow m i) = X ^ i := by
  have hsum := @wordPoly_eq_sum _ (BitVec.twoPow m i) {i}
    (Finset.singleton_subset_iff.2 (Finset.mem_range.2 hi)) fun j _ => by
      simp [BitVec.getLsbD_twoPow, hi, eq_comm]
  rw [hsum, Finset.sum_singleton]

theorem crcFrom_bits_twoPow (g : BitVec n) {i : ℕ} (hi : i < m) :
    crcFrom g 0 (bits (BitVec.twoPow m i)) = crcPower g i := by
  apply wordPoly_injective
  rw [wordPoly_crcFrom, wordPoly_crcPower, msgPoly_bits, wordPoly_twoPow hi, wordPoly_zero, zero_mul,
    zero_add, ← pow_add, Nat.add_comm]

/-- The checksum of a symbol is made of those of its bits. -/
theorem crcFrom_bits_eq (g : BitVec n) (b : BitVec m) :
    crcFrom g 0 (bits b) = bitSum (crcPower g) b := by
  have hlinear : XorLinear fun b : BitVec m => crcFrom g 0 (bits b) := crcFrom_bits_xor g
  rw [hlinear.eq_bitSum b]
  exact bitSum_congr (fun i hi => crcFrom_bits_twoPow g hi) b

variable (table feed) in
/-- The state after the symbols `d`, from state `s` on. -/
def lookupFrom (s : BitVec w) (d : List (BitVec m)) : BitVec w :=
  d.foldl (fun s b => table (b ^^^ feed s)) s

variable (table feed) in
/-- What a symbol contributes that stands `j` symbols before the end. -/
def share (j : ℕ) (b : BitVec m) : BitVec w := (fun s => table (feed s))^[j] (table b)

variable (table feed) in
def shares : List (BitVec m) → BitVec w
  | [] => 0
  | b :: d => share table feed d.length b ^^^ shares d

theorem lookupFrom_eq (ht : XorLinear table) (hf : XorLinear feed) (s : BitVec w)
    (d : List (BitVec m)) :
    lookupFrom table feed s d = (fun s => table (feed s))^[d.length] s ^^^ shares table feed d := by
  induction d generalizing s with
  | nil => exact (BitVec.xor_zero).symm
  | cons b d ih =>
    have hstep : lookupFrom table feed s (b :: d) =
        lookupFrom table feed (table (b ^^^ feed s)) d := rfl
    have hiter := (ht.comp hf).iterate d.length (table b) (table (feed s))
    rw [hstep, ih, ht, hiter, shares, share, List.length_cons, Function.iterate_succ_apply,
      ← BitVec.xor_assoc, BitVec.xor_comm ((fun s => table (feed s))^[d.length] (table b))]

/-- The contributions of the symbols add up. -/
theorem lookupFrom_zero (ht : XorLinear table) (hf : XorLinear feed) (d : List (BitVec m)) :
    lookupFrom table feed 0 d = shares table feed d := by
  rw [lookupFrom_eq ht hf, ((ht.comp hf).iterate _).map_zero]
  exact BitVec.zero_xor

end Lookup

end Lib
