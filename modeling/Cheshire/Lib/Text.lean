import Mathlib.Data.Nat.Digits.Lemmas

/-!
# Numbers in texts

A number is written in a base of at most sixteen (`numeral`), the highest digit first and with
zeros in front up to a given width, and read back from the start of a text (`readNumber`).
Fixed parts of a text are read by `expect`.
-/

namespace Lib

variable {base : ℕ} {c : Char}

/-! ## Fixed parts -/

/-- What follows `s` in a text that starts with `s`. -/
def expect : List Char → List Char → Option (List Char)
  | [], cs => some cs
  | c :: s, d :: cs => if c = d then expect s cs else none
  | _ :: _, [] => none

@[simp] theorem expect_append (s cs : List Char) : expect s (s ++ cs) = some cs := by
  induction s with
  | nil => rfl
  | cons c s ih => rw [List.cons_append, expect, if_pos rfl, ih]

/-! ## Digits -/

def numeral (base width n : ℕ) : List Char :=
  List.replicate (width - (Nat.digits base n).length) '0' ++
    (Nat.digits base n).reverse.map Nat.digitChar

/-- The value of a digit; 16 for what is no digit of any base. -/
def digitOf (c : Char) : ℕ :=
  if '0' ≤ c ∧ c ≤ '9' then c.toNat - '0'.toNat
  else if 'a' ≤ c ∧ c ≤ 'f' then c.toNat - 'a'.toNat + 10
  else 16

def isDigit (base : ℕ) (c : Char) : Bool := decide (digitOf c < base)

def valueOf (base : ℕ) (cs : List Char) : ℕ := cs.foldl (fun v c => base * v + digitOf c) 0

/-- The number at the start of a text, and the rest of the text. -/
def readNumber (base : ℕ) (cs : List Char) : Option (ℕ × List Char) :=
  match cs.takeWhile (isDigit base) with
  | [] => none
  | ds => some (valueOf base ds, cs.dropWhile (isDigit base))

theorem digitOf_digitChar {d : ℕ} (hd : d < 16) : digitOf d.digitChar = d := by
  revert d
  decide

theorem isDigit_digitChar {d : ℕ} (hd : d < base) (hb : base ≤ 16) :
    isDigit base d.digitChar = true := by
  rw [isDigit, digitOf_digitChar (by omega)]
  exact decide_eq_true hd

theorem isDigit_numeral {width n : ℕ} (hb : 1 < base) (hb' : base ≤ 16)
    (hc : c ∈ numeral base width n) : isDigit base c = true := by
  rcases List.mem_append.mp hc with hc | hc
  · rw [List.eq_of_mem_replicate hc]
    exact isDigit_digitChar (d := 0) (by omega) hb'
  · obtain ⟨d, hd, rfl⟩ := List.mem_map.mp hc
    exact isDigit_digitChar (Nat.digits_lt_base hb (List.mem_reverse.mp hd)) hb'

theorem numeral_ne_nil {width : ℕ} (hw : 0 < width) (n : ℕ) : numeral base width n ≠ [] := by
  intro h
  have hlength := congrArg List.length h
  rw [numeral, List.length_append, List.length_replicate, List.length_map, List.length_reverse,
    List.length_nil] at hlength
  omega

/-- A number that fits in the width takes up exactly the width. -/
theorem numeral_length {width n : ℕ} (hb : 1 < base) (hn : n < base ^ width) :
    (numeral base width n).length = width := by
  have hdigits := (Nat.digits_length_le_iff hb n).mpr hn
  rw [numeral, List.length_append, List.length_replicate, List.length_map, List.length_reverse]
  omega

/-! ## Values -/

theorem foldl_digits (base v : ℕ) (cs : List Char) :
    cs.foldl (fun v c => base * v + digitOf c) v = v * base ^ cs.length + valueOf base cs := by
  induction cs generalizing v with
  | nil =>
    rw [valueOf, List.foldl_nil, List.foldl_nil, List.length_nil, pow_zero, mul_one, add_zero]
  | cons c cs ih =>
    rw [valueOf, List.foldl_cons, List.foldl_cons, ih, ih, List.length_cons, pow_succ]
    ring

theorem valueOf_append (base : ℕ) (cs ds : List Char) :
    valueOf base (cs ++ ds) = valueOf base cs * base ^ ds.length + valueOf base ds := by
  rw [valueOf, List.foldl_append, foldl_digits]
  rfl

theorem valueOf_zeros (base k : ℕ) : valueOf base (List.replicate k '0') = 0 := by
  induction k with
  | zero => rfl
  | succ k ih =>
    rw [List.replicate_succ', valueOf_append, ih, zero_mul, zero_add]
    rfl

theorem valueOf_digits (hb : base ≤ 16) {ds : List ℕ} (h : ∀ d ∈ ds, d < base) :
    valueOf base (ds.reverse.map Nat.digitChar) = Nat.ofDigits base ds := by
  induction ds with
  | nil => rfl
  | cons d ds ih =>
    have hd := h d (List.mem_cons_self ..)
    have hone : valueOf base [d.digitChar] = d := by
      rw [valueOf, List.foldl_cons, List.foldl_nil, digitOf_digitChar (by omega), mul_zero,
        zero_add]
    rw [List.reverse_cons, List.map_append, List.map_singleton, valueOf_append,
      ih fun e he => h e (List.mem_cons_of_mem d he), hone, Nat.ofDigits_cons,
      List.length_singleton, pow_one]
    ring

@[simp] theorem valueOf_numeral (hb : 1 < base) (hb' : base ≤ 16) (width n : ℕ) :
    valueOf base (numeral base width n) = n := by
  have hdigits := valueOf_digits hb' fun d (hd : d ∈ Nat.digits base n) => Nat.digits_lt_base hb hd
  rw [numeral, valueOf_append, valueOf_zeros, zero_mul, zero_add, hdigits, Nat.ofDigits_digits]

/-! ## Reading -/

/-- Digits are read up to the first character that is none. -/
theorem readNumber_append {ds : List Char} (hne : ds ≠ []) (hds : ∀ d ∈ ds, isDigit base d = true)
    (hc : isDigit base c = false) (cs : List Char) :
    readNumber base (ds ++ c :: cs) = some (valueOf base ds, c :: cs) := by
  have htake : (ds ++ c :: cs).takeWhile (isDigit base) = ds := by
    rw [List.takeWhile_append_of_pos hds, List.takeWhile_cons_of_neg (by simp [hc]),
      List.append_nil]
  have hdrop : (ds ++ c :: cs).dropWhile (isDigit base) = c :: cs := by
    rw [List.dropWhile_append_of_pos hds, List.dropWhile_cons_of_neg (by simp [hc])]
  rw [readNumber, htake, hdrop]
  cases ds with
  | nil => exact absurd rfl hne
  | cons d ds => rfl

/-- A number is read back from its numeral. -/
theorem readNumber_numeral {width : ℕ} (hb : 1 < base) (hb' : base ≤ 16) (hw : 0 < width)
    (n : ℕ) (hc : isDigit base c = false) (cs : List Char) :
    readNumber base (numeral base width n ++ c :: cs) = some (n, c :: cs) := by
  rw [readNumber_append (numeral_ne_nil hw n) (fun d hd => isDigit_numeral hb hb' hd) hc,
    valueOf_numeral hb hb']

end Lib
