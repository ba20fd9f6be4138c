import Cheshire.Lib.Bytes

/-!
# NOR flash

An erase sets every bit of the block that an address is in; a program clears the bits that its data
does not have, in the page that its address is in. Blocks and pages are aligned to their sizes.

`program_pages_apply` says what the programs of consecutive pages leave: every byte loses the bits
that its new value does not have, and so becomes that value if it has been erased.
-/

namespace Lib.Nor

abbrev Cells := ℕ → Byte

def erase (size a : ℕ) (cells : Cells) : Cells := fun c =>
  if c / size = a / size then 0xFF else cells c

/-- The data wraps around at the end of the page, and fits into it. -/
def program (page a : ℕ) (data : List Byte) (cells : Cells) : Cells := fun c =>
  if c / page = a / page then
    cells c &&& (data[(c + (page - a % page)) % page]?).getD 0xFF
  else cells c

variable {cells : Cells} {size page a b c : ℕ} {data : List Byte}

theorem erase_inside (h : c / size = a / size) : erase size a cells c = 0xFF := by
  rw [erase, if_pos h]

/-! ## Frames -/

/-- Two addresses in different regions are in different blocks, where blocks divide the regions. -/
theorem div_ne_of_dvd {region : ℕ} (hdvd : size ∣ region) (h : c / region ≠ a / region) :
    c / size ≠ a / size := by
  obtain ⟨m, rfl⟩ := hdvd
  intro heq
  rw [← Nat.div_div_eq_div_mul, ← Nat.div_div_eq_div_mul, heq] at h
  exact h rfl

theorem erase_frame {region : ℕ} (hdvd : size ∣ region) (h : c / region ≠ a / region) :
    erase size a cells c = cells c := by
  rw [erase, if_neg (div_ne_of_dvd hdvd h)]

theorem program_frame {region : ℕ} (hdvd : page ∣ region) (h : c / region ≠ a / region) :
    program page a data cells c = cells c := by
  rw [program, if_neg (div_ne_of_dvd hdvd h)]

/-! ## Whole pages -/

/-- A program of page `n`, which begins at its first byte. -/
theorem program_page {n : ℕ} (hpage : 0 < page) : program page (page * n) data cells c =
    if c / page = n then cells c &&& (data[c % page]?).getD 0xFF else cells c := by
  rw [program, Nat.mul_div_cancel_left n hpage, Nat.mul_mod_right, Nat.sub_zero,
    Nat.add_mod_right]

/-- Pages `b`, ..., `b + n - 1`, one after the other. -/
theorem program_pages_apply (hpage : 0 < page) (new : ℕ → List Byte) (n : ℕ) :
    (List.range n).foldl (fun cells i => program page (page * (b + i)) (new i) cells) cells c =
      if b ≤ c / page ∧ c / page < b + n then
        cells c &&& ((new (c / page - b))[c % page]?).getD 0xFF
      else cells c := by
  induction n with
  | zero => rw [if_neg (by omega)]; rfl
  | succ n ih =>
    rw [List.range_succ, List.foldl_append, List.foldl_cons, List.foldl_nil, program_page hpage, ih]
    by_cases hlast : c / page = b + n
    · rw [if_pos hlast, if_neg (by omega), if_pos (by omega), hlast, Nat.add_sub_cancel_left]
    · rw [if_neg hlast]
      exact if_congr (by omega) rfl rfl

end Lib.Nor
