import Cheshire.Lib.Bytes
import Cheshire.Lib.Text
import Mathlib.Data.BitVec
import Mathlib.Data.List.GetD
import Mathlib.Data.Nat.Log
import Mathlib.Order.Bounds.Basic

/-!
# The generated boot ROM

`gen_bootrom.py` pads a binary to a power of two, cuts it into words and prints a SystemVerilog
module that looks the words up.

**The generator** (`moduleText`). The text of the module from the declaration of `NumWords` on;
what comes before is the same for every binary. A word is printed in hexadecimal, its highest byte
first, as one arm of a `case` statement.

**The reader** (`readModule`). What the text says: the parameter and the arms. The fixed parts
are read as they stand, blanks and comments are skipped.

**The circuit** (`Module.dataO`). The byte address is divided by the bytes of a word and cut to
the width of `word`; the first arm with that label gives the data, and no arm gives zero.

**Theorem (`emitted_rom`).** For every binary and every pad the text is read, its labels are the
word indices in order, and the circuit gives for every address the word of the padded binary
there, the image repeating over the address space.
-/

namespace Cheshire
namespace Bootrom

open Lib

variable {binary word : List Byte} {pad : ℤ}

/-! ## Image -/

/-- The doubling loop, for at most `fuel` rounds. -/
def lengthLoop (need : ℕ) : ℕ → ℕ → ℕ
  | 0, length => length
  | fuel + 1, length => if length < need then lengthLoop need fuel (length * 2) else length

/-- `max(len(binary), args.pad)`. -/
def need (binary : List Byte) (pad : ℤ) : ℕ := (max (binary.length : ℤ) pad).toNat

def bootromLength (binary : List Byte) (pad : ℤ) : ℕ :=
  lengthLoop (need binary pad) (need binary pad) 8

def padded (binary : List Byte) (pad : ℤ) : List Byte :=
  binary ++ List.replicate (bootromLength binary pad - binary.length) 0#8

/-! ## Generator -/

def chunks (seq : List Byte) (size : ℕ) : List (List Byte) :=
  (List.range' 0 ((seq.length + size - 1) / size) size).map fun pos => (seq.drop pos).take size

def hexByte (x : Byte) : List Char := numeral 16 2 x.toNat

def formatWordHex (word : List Byte) : List Char :=
  (word.map hexByte ++ List.replicate (4 - word.length) ['0', '0']).reverse.flatten

def formatArm (i : ℕ) (x : List Byte) : List Char :=
  numeral 10 3 i ++ ": data_o = 32'h".toList ++ formatWordHex x ++ " /* 0x".toList ++
    numeral 16 4 (i * 4) ++ " */".toList

def armSep : List Char := ";\n            ".toList

def formatBinary (binary : List Byte) : ℕ × List Char :=
  let words := (chunks binary 4).zipIdx
  (words.length, armSep.intercalate (words.map fun x => formatArm x.2 x.1))

def numWordsDecl : List Char := "localparam unsigned NumWords = ".toList

def wordDecl : List Char :=
  ";\n    logic [$clog2(NumWords)-1:0] word;\n\n".toList ++
    "    assign word = addr_i / (DataWidth / 8);\n\n".toList ++
    "    always_comb begin\n        data_o = '0;\n        unique case (word)\n        ".toList

def caseEnd : List Char := "default: data_o = '0;\n        endcase\n    end\n\nendmodule".toList

def moduleText (binary : List Byte) (pad : ℤ) : List Char :=
  let words := formatBinary (padded binary pad)
  numWordsDecl ++ numeral 10 1 words.1 ++ wordDecl ++ words.2 ++ armSep ++ caseEnd

/-! ## Reader -/

/-- Skips blanks and comments; the flag says whether the text starts inside a comment. -/
def skipBlank : Bool → List Char → List Char
  | true, '*' :: '/' :: cs => skipBlank false cs
  | true, _ :: cs => skipBlank true cs
  | false, '/' :: '*' :: cs => skipBlank true cs
  | false, c :: cs => if c = ' ' ∨ c = '\n' then skipBlank false cs else c :: cs
  | _, [] => []

structure Module where
  numWords : ℕ
  arms : List (ℕ × BitVec 32)
deriving DecidableEq

/-- The arms of the `case` statement up to its default, at most `fuel` of them. -/
def readArms : ℕ → List Char → Option (List (ℕ × BitVec 32))
  | 0, _ => none
  | fuel + 1, cs =>
    match readNumber 10 cs with
    | none => (expect caseEnd cs).map fun _ => []
    | some (label, cs) =>
      (expect ": data_o = 32'h".toList cs).bind fun cs =>
      (readNumber 16 cs).bind fun x =>
      (expect [';'] (skipBlank false x.2)).bind fun cs =>
      (readArms fuel (skipBlank false cs)).map fun arms => (label, BitVec.ofNat 32 x.1) :: arms

def readModule (cs : List Char) : Option Module :=
  (expect numWordsDecl cs).bind fun cs =>
  (readNumber 10 cs).bind fun x =>
  (expect wordDecl x.2).bind fun cs =>
  (readArms (cs.length + 1) cs).map fun arms => ⟨x.1, arms⟩

/-! ## Circuit -/

/-- The parameters of the instance in `cheshire_soc`. -/
abbrev AddrWidth : ℕ := 16

abbrev DataWidth : ℕ := 32

namespace Module

/-- The width of the signal `word`. -/
def wordWidth (m : Module) : ℕ := Nat.clog 2 m.numWords

def dataO (m : Module) (addr : BitVec AddrWidth) : BitVec DataWidth :=
  let word := BitVec.ofNat m.wordWidth (addr.toNat / (DataWidth / 8))
  match m.arms.find? fun arm => arm.1 = word.toNat with
  | some arm => arm.2
  | none => BitVec.zero DataWidth

end Module

/-! ## Length -/

theorem lengthLoop_eq {need fuel k : ℕ} (h : need ≤ 2 ^ k + fuel) :
    lengthLoop need fuel (2 ^ k) = 2 ^ max k (Nat.clog 2 need) := by
  induction fuel generalizing k with
  | zero =>
    have hclog : Nat.clog 2 need ≤ k := Nat.clog_le_of_le_pow (by omega)
    rw [lengthLoop, max_eq_left hclog]
  | succ fuel ih =>
    have hpos := Nat.one_le_two_pow (n := k)
    rw [lengthLoop]
    by_cases hk : 2 ^ k < need
    · have hclog := (Nat.lt_clog_iff_pow_lt one_lt_two).mpr hk
      have hnext : need ≤ 2 ^ (k + 1) + fuel := by
        rw [pow_succ]
        omega
      rw [if_pos hk, ← pow_succ, ih hnext, max_eq_right hclog, max_eq_right hclog.le]
    · have hclog : Nat.clog 2 need ≤ k := Nat.clog_le_of_le_pow (by omega)
      rw [if_neg hk, max_eq_left hclog]

theorem bootromLength_eq (binary : List Byte) (pad : ℤ) :
    bootromLength binary pad = 2 ^ max 3 (Nat.clog 2 (need binary pad)) :=
  lengthLoop_eq (k := 3) (by omega)

theorem need_le {L : ℕ} : need binary pad ≤ L ↔ binary.length ≤ L ∧ pad ≤ L := by
  rw [need]
  omega

/-- The length is the least power of two that is at least eight and holds the binary and the
pad. -/
theorem bootromLength_isLeast (binary : List Byte) (pad : ℤ) :
    IsLeast {L | (∃ k, L = 2 ^ k) ∧ 8 ≤ L ∧ binary.length ≤ L ∧ pad ≤ L}
      (bootromLength binary pad) := by
  rw [bootromLength_eq]
  refine ⟨⟨⟨_, rfl⟩, ?_, need_le.mp ?_⟩, ?_⟩
  · change 2 ^ 3 ≤ _
    exact Nat.pow_le_pow_right two_pos (le_max_left ..)
  · exact (Nat.le_pow_clog one_lt_two _).trans (Nat.pow_le_pow_right two_pos (le_max_right ..))
  · rintro L ⟨⟨k, rfl⟩, height, hneed⟩
    refine Nat.pow_le_pow_right two_pos (max_le ?_ ?_)
    · exact (Nat.pow_le_pow_iff_right one_lt_two).mp (show 2 ^ 3 ≤ 2 ^ k from height)
    · exact Nat.clog_le_of_le_pow (need_le.mpr hneed)

/-- The words of the image are a power of two in number, at least two of them. -/
theorem exists_words (binary : List Byte) (pad : ℤ) :
    ∃ k, bootromLength binary pad = 4 * 2 ^ (k + 1) := by
  obtain ⟨k, hk⟩ := Nat.exists_eq_add_of_le (le_max_left 3 (Nat.clog 2 (need binary pad)))
  refine ⟨k, ?_⟩
  rw [bootromLength_eq, hk]
  ring

theorem padded_length (binary : List Byte) (pad : ℤ) :
    (padded binary pad).length = bootromLength binary pad := by
  have hfits := (bootromLength_isLeast binary pad).1.2.2.1
  rw [padded, List.length_append, List.length_replicate]
  omega

/-- The binary goes on with zeros. -/
theorem getD_zeros (word : List Byte) (k i : ℕ) :
    (word ++ List.replicate k 0#8).getD i 0#8 = word.getD i 0#8 := by
  rcases Nat.lt_or_ge i word.length with hi | hi
  · exact List.getD_append _ _ _ _ hi
  · rw [List.getD_append_right _ _ _ _ hi, List.getD_eq_default _ _ hi]
    exact List.getElem?_getD_replicate_default_eq ..

/-! ## Words -/

theorem valueOf_hexBytes (word : List Byte) :
    valueOf 16 (word.map hexByte).reverse.flatten = le word.length fun e => word.getD e 0#8 := by
  induction word with
  | nil => rfl
  | cons x word ih =>
    have hlength : (hexByte x).length = 2 := numeral_length (by decide) x.isLt
    have hvalue : valueOf 16 (hexByte x) = x.toNat := valueOf_numeral (by decide) (by decide) ..
    rw [List.map_cons, List.reverse_cons, List.flatten_append, List.flatten_singleton,
      valueOf_append, ih, hlength, hvalue, List.length_cons, le, List.getD_cons_zero]
    simp only [List.getD_cons_succ]
    ring

/-- A printed word is the little-endian number its bytes spell, zeros taking the place of bytes
it lacks. -/
theorem valueOf_formatWordHex (h : word.length ≤ 4) :
    valueOf 16 (formatWordHex word) = le 4 fun e => word.getD e 0#8 := by
  have hzeros : List.replicate (4 - word.length) ['0', '0'] =
      (List.replicate (4 - word.length) 0#8).map hexByte := by
    rw [List.map_replicate]
    rfl
  have hlength : (word ++ List.replicate (4 - word.length) 0#8).length = 4 := by
    rw [List.length_append, List.length_replicate]
    omega
  rw [formatWordHex, hzeros, ← List.map_append, valueOf_hexBytes, hlength]
  simp only [getD_zeros]

theorem isDigit_formatWordHex {c : Char} (hc : c ∈ formatWordHex word) : isDigit 16 c = true := by
  obtain ⟨cs, hcs, hc⟩ := List.mem_flatten.mp hc
  rcases List.mem_append.mp (List.mem_reverse.mp hcs) with hcs | hcs
  · obtain ⟨x, -, rfl⟩ := List.mem_map.mp hcs
    exact isDigit_numeral (by decide) (by decide) hc
  · rw [List.eq_of_mem_replicate hcs] at hc
    have hzero : c = '0' := by simpa using hc
    rw [hzero]
    rfl

theorem formatWordHex_ne_nil (hw : word ≠ []) : formatWordHex word ≠ [] := by
  obtain ⟨x, word, rfl⟩ := List.exists_cons_of_ne_nil hw
  intro h
  have hx : hexByte x ∈ ((x :: word).map hexByte ++
      List.replicate (4 - (x :: word).length) ['0', '0']).reverse :=
    List.mem_reverse.mpr (List.mem_append_left _ (List.mem_map_of_mem (List.mem_cons_self ..)))
  exact numeral_ne_nil two_pos _ (List.flatten_eq_nil_iff.mp h _ hx)

/-! ## Reading the text back -/

theorem skipBlank_comment {ds : List Char} (h : ∀ d ∈ ds, d ≠ '*') (cs : List Char) :
    skipBlank true (ds ++ '*' :: '/' :: cs) = skipBlank false cs := by
  induction ds with
  | nil => rfl
  | cons d ds ih =>
    have hd := h d (List.mem_cons_self ..)
    have hskip : skipBlank true (d :: (ds ++ '*' :: '/' :: cs)) =
        skipBlank true (ds ++ '*' :: '/' :: cs) := by
      rw [skipBlank]
      exact fun _ hd' _ => hd hd'
    rw [List.cons_append, hskip, ih fun e he => h e (List.mem_cons_of_mem d he)]

theorem skipBlank_digits {ds : List Char} (hne : ds ≠ []) (hds : ∀ d ∈ ds, isDigit 10 d = true)
    (cs : List Char) : skipBlank false (ds ++ cs) = ds ++ cs := by
  obtain ⟨d, ds, rfl⟩ := List.exists_cons_of_ne_nil hne
  have hd := hds d (List.mem_cons_self ..)
  have hother : ∀ c, isDigit 10 c = false → d ≠ c := by
    rintro c hc rfl
    rw [hc] at hd
    cases hd
  have hblank : ¬(d = ' ' ∨ d = '\n') := not_or.mpr ⟨hother _ rfl, hother _ rfl⟩
  rw [List.cons_append, skipBlank, if_neg hblank]
  exact fun _ hd' _ => hother '/' rfl hd'

/-- The address in the comment of an arm is skipped. -/
theorem skipBlank_address (n : ℕ) (cs : List Char) :
    skipBlank false (" /* 0x".toList ++ (numeral 16 4 n ++ (" */".toList ++ cs))) =
      skipBlank false cs := by
  have hstar : ∀ d ∈ numeral 16 4 n ++ [' '], d ≠ '*' := by
    intro d hd
    rcases List.mem_append.mp hd with hd | hd
    · have hdigit := isDigit_numeral (by decide) (by decide) hd
      rintro rfl
      cases hdigit
    · rw [List.mem_singleton.mp hd]
      decide
  calc skipBlank false (" /* 0x".toList ++ (numeral 16 4 n ++ (" */".toList ++ cs)))
      = skipBlank true (numeral 16 4 n ++ [' '] ++ '*' :: '/' :: cs) := by
        rw [List.append_assoc]
        rfl
    _ = skipBlank false cs := skipBlank_comment hstar cs

def wordValue (word : List Byte) : BitVec 32 := BitVec.ofNat 32 (valueOf 16 (formatWordHex word))

/-- An arm is read back from its text. -/
theorem readArms_arm (i : ℕ) (hw : word ≠ []) (fuel : ℕ) (cs : List Char) :
    readArms (fuel + 1) (formatArm i word ++ armSep ++ cs) =
      (readArms fuel (skipBlank false cs)).map fun arms => (i, wordValue word) :: arms := by
  have hlabel (cs : List Char) :
      readNumber 10 (numeral 10 3 i ++ (": data_o = 32'h".toList ++ cs)) =
        some (i, ": data_o = 32'h".toList ++ cs) :=
    readNumber_numeral (by decide) (by decide) (by decide) i rfl _
  have hvalue (cs : List Char) : readNumber 16 (formatWordHex word ++ (" /* 0x".toList ++ cs)) =
      some (valueOf 16 (formatWordHex word), " /* 0x".toList ++ cs) :=
    readNumber_append (formatWordHex_ne_nil hw) (fun c hc => isDigit_formatWordHex hc) rfl _
  have hsep : skipBlank false (armSep ++ cs) = [';'] ++ ("\n            ".toList ++ cs) := rfl
  have hindent : skipBlank false ("\n            ".toList ++ cs) = skipBlank false cs := rfl
  rw [readArms, formatArm]
  simp only [List.append_assoc]
  rw [hlabel]
  simp only [expect_append, Option.bind_some, hvalue, skipBlank_address, hsep, hindent]
  rfl

/-- The text of the arms, each with its separator. -/
def armsText (words : List (List Byte × ℕ)) : List Char :=
  words.flatMap fun x => formatArm x.2 x.1 ++ armSep

theorem armsText_cons (x : List Byte × ℕ) (words : List (List Byte × ℕ)) :
    armsText (x :: words) = formatArm x.2 x.1 ++ armSep ++ armsText words := rfl

theorem length_armsText (words : List (List Byte × ℕ)) :
    words.length ≤ (armsText words).length := by
  induction words with
  | nil => exact le_rfl
  | cons x words ih =>
    have hsep : armSep.length = 14 := rfl
    rw [armsText_cons, List.length_append, List.length_append, List.length_cons, hsep]
    omega

theorem skipBlank_armsText (words : List (List Byte × ℕ)) :
    skipBlank false (armsText words ++ caseEnd) = armsText words ++ caseEnd := by
  cases words with
  | nil => rfl
  | cons x words =>
    rw [armsText_cons, formatArm]
    simp only [List.append_assoc]
    exact skipBlank_digits (numeral_ne_nil (by decide) x.2)
      (fun d hd => isDigit_numeral (by decide) (by decide) hd) _

theorem readArms_armsText {words : List (List Byte × ℕ)} (hwords : ∀ x ∈ words, x.1 ≠ [])
    {fuel : ℕ} (hfuel : words.length < fuel) :
    readArms fuel (armsText words ++ caseEnd) = some (words.map fun x => (x.2, wordValue x.1)) := by
  induction words generalizing fuel with
  | nil =>
    obtain ⟨fuel, rfl⟩ := Nat.exists_eq_add_of_lt hfuel
    rfl
  | cons x words ih =>
    obtain ⟨fuel, rfl⟩ := Nat.exists_eq_add_of_le' (Nat.one_le_of_lt hfuel)
    have hrest := ih (fun y hy => hwords y (List.mem_cons_of_mem x hy))
      (Nat.lt_of_succ_lt_succ hfuel)
    rw [armsText_cons, List.append_assoc, readArms_arm _ (hwords x (List.mem_cons_self ..)),
      skipBlank_armsText, hrest]
    rfl

theorem intercalate_append {α : Type*} (sep : List α) {xs : List (List α)} (h : xs ≠ []) :
    sep.intercalate xs ++ sep = xs.flatMap fun x => x ++ sep := by
  induction xs with
  | nil => exact absurd rfl h
  | cons x xs ih =>
    cases xs with
    | nil => rw [List.intercalate_singleton, List.flatMap_singleton]
    | cons y xs =>
      rw [List.intercalate_cons_cons, List.append_assoc, ih (List.cons_ne_nil _ _)]
      rfl

/-- The words of the image with their indices. -/
def romWords (binary : List Byte) (pad : ℤ) : List (List Byte × ℕ) :=
  (chunks (padded binary pad) 4).zipIdx

theorem romWords_eq (binary : List Byte) (pad : ℤ) :
    romWords binary pad = (List.range (bootromLength binary pad / 4)).map fun i =>
      (((padded binary pad).drop (4 * i)).take 4, i) := by
  obtain ⟨k, hk⟩ := exists_words binary pad
  have hcount : ((padded binary pad).length + 4 - 1) / 4 = bootromLength binary pad / 4 := by
    rw [padded_length, hk]
    omega
  rw [romWords, chunks, hcount]
  refine List.ext_getElem (by simp) fun i h₁ h₂ => ?_
  simp

/-- Every word of the image is whole. -/
theorem romWord_length {i : ℕ} (hi : i < bootromLength binary pad / 4) :
    (((padded binary pad).drop (4 * i)).take 4).length = 4 := by
  rw [List.length_take, List.length_drop, padded_length]
  omega

def rom (binary : List Byte) (pad : ℤ) : Module :=
  ⟨(romWords binary pad).length, (romWords binary pad).map fun x => (x.2, wordValue x.1)⟩

/-- The text is read as what it was printed from. -/
theorem readModule_moduleText (binary : List Byte) (pad : ℤ) :
    readModule (moduleText binary pad) = some (rom binary pad) := by
  obtain ⟨k, hk⟩ := exists_words binary pad
  have hne : romWords binary pad ≠ [] := by
    rw [romWords_eq, hk, Nat.mul_div_cancel_left _ four_pos]
    exact mt List.map_eq_nil_iff.mp (mt List.range_eq_nil.mp (by positivity))
  have hwords : ∀ x ∈ romWords binary pad, x.1 ≠ [] := by
    rw [romWords_eq]
    intro x hx
    obtain ⟨i, hi, rfl⟩ := List.mem_map.mp hx
    exact List.ne_nil_of_length_pos (by rw [romWord_length (List.mem_range.mp hi)]; exact four_pos)
  have harms : (formatBinary (padded binary pad)).2 ++ armSep = armsText (romWords binary pad) := by
    change armSep.intercalate ((romWords binary pad).map _) ++ armSep = _
    rw [intercalate_append _ (mt List.map_eq_nil_iff.mp hne), List.flatMap_map]
    rfl
  have hfuel : (romWords binary pad).length <
      (armsText (romWords binary pad) ++ caseEnd).length + 1 := by
    have hlength := length_armsText (romWords binary pad)
    rw [List.length_append]
    omega
  have hnumber (cs : List Char) : readNumber 10
      (numeral 10 1 (formatBinary (padded binary pad)).1 ++ (wordDecl ++ cs)) =
      some ((romWords binary pad).length, wordDecl ++ cs) :=
    readNumber_numeral (by decide) (by decide) (by decide) _ rfl _
  rw [moduleText]
  simp only [List.append_assoc]
  rw [← List.append_assoc _ armSep, harms, readModule, expect_append, Option.bind_some, hnumber,
    Option.bind_some, expect_append,
    Option.bind_some, readArms_armsText hwords hfuel]
  rfl

/-! ## The circuit -/

theorem rom_numWords (binary : List Byte) (pad : ℤ) :
    (rom binary pad).numWords = bootromLength binary pad / 4 := by
  rw [rom, romWords_eq, List.length_map, List.length_range]

/-- The signal `word` has one value for each word of the image. -/
theorem rom_wordWidth (binary : List Byte) (pad : ℤ) :
    (rom binary pad).wordWidth = Nat.log 2 (bootromLength binary pad / 4) ∧
      2 ^ (rom binary pad).wordWidth = bootromLength binary pad / 4 := by
  obtain ⟨k, hk⟩ := exists_words binary pad
  rw [Module.wordWidth, rom_numWords, hk, Nat.mul_div_cancel_left _ four_pos,
    Nat.clog_pow _ _ one_lt_two, Nat.log_pow one_lt_two]
  exact ⟨rfl, rfl⟩

theorem rom_labels (binary : List Byte) (pad : ℤ) :
    (rom binary pad).arms.map Prod.fst = List.range (bootromLength binary pad / 4) := by
  rw [rom, romWords_eq, List.map_map, List.map_map]
  exact List.map_id _

theorem find_label {α : Type*} (f : ℕ → α) {n w : ℕ} (hw : w < n) :
    ((List.range n).map fun i => (i, f i)).find? (fun arm => arm.1 = w) = some (w, f w) := by
  have hfind : (List.range n).find? (fun i => decide (i = w)) = some w := by
    refine List.find?_range_eq_some.mpr ⟨decide_eq_true rfl, List.mem_range.mpr hw, ?_⟩
    intro j hj
    simpa using hj.ne
  rw [List.find?_map, Function.comp_def, hfind]
  rfl

/-- The value of a word of the image. -/
theorem wordValue_romWord {i : ℕ} (hi : i < bootromLength binary pad / 4) :
    wordValue (((padded binary pad).drop (4 * i)).take 4) =
      BitVec.ofNat 32 (le 4 fun e => binary.getD (4 * i + e) 0#8) := by
  have hbytes : ∀ e < 4, (((padded binary pad).drop (4 * i)).take 4).getD e 0#8 =
      binary.getD (4 * i + e) 0#8 := by
    intro e he
    rw [← getD_zeros binary _ (4 * i + e), List.getD_eq_getElem?_getD, List.getElem?_take_of_lt he,
      List.getElem?_drop, ← List.getD_eq_getElem?_getD, padded]
  rw [wordValue, valueOf_formatWordHex (romWord_length hi).le, le_congr hbytes]

/-- The circuit looks up the addressed word; the image repeats over the address space. -/
theorem rom_dataO (binary : List Byte) (pad : ℤ) (addr : BitVec AddrWidth) :
    (rom binary pad).dataO addr = BitVec.ofNat 32 (le 4 fun e =>
      binary.getD (4 * (addr.toNat / 4 % (bootromLength binary pad / 4)) + e) 0#8) := by
  obtain ⟨k, hk⟩ := exists_words binary pad
  have hlt : addr.toNat / 4 % (bootromLength binary pad / 4) < bootromLength binary pad / 4 := by
    refine Nat.mod_lt _ ?_
    rw [hk, Nat.mul_div_cancel_left _ four_pos]
    positivity
  have hword : (BitVec.ofNat (rom binary pad).wordWidth (addr.toNat / (DataWidth / 8))).toNat =
      addr.toNat / 4 % (bootromLength binary pad / 4) := by
    rw [BitVec.toNat_ofNat, (rom_wordWidth binary pad).2]
    rfl
  have harms : (rom binary pad).arms = (List.range (bootromLength binary pad / 4)).map fun i =>
      (i, wordValue (((padded binary pad).drop (4 * i)).take 4)) := by
    rw [rom, romWords_eq, List.map_map]
    rfl
  rw [Module.dataO]
  simp only [hword, harms]
  rw [find_label _ hlt]
  exact wordValue_romWord hlt

/-- **Main result.** The length is the least power of two that is at least eight and holds the
binary and the pad. The printed module is read back with a quarter of the length as `NumWords`,
an index signal of exactly the bits these many words need, and one arm for each index in order.
For every address it gives the word of the binary, continued with zeros, at the word index of the
address modulo the number of words. -/
theorem emitted_rom (binary : List Byte) (pad : ℤ) :
    IsLeast {L | (∃ k, L = 2 ^ k) ∧ 8 ≤ L ∧ binary.length ≤ L ∧ pad ≤ L}
      (bootromLength binary pad) ∧
    ∃ m, readModule (moduleText binary pad) = some m ∧
      m.numWords = bootromLength binary pad / 4 ∧
      m.wordWidth = Nat.log 2 (bootromLength binary pad / 4) ∧
      2 ^ m.wordWidth = bootromLength binary pad / 4 ∧
      m.arms.map Prod.fst = List.range (bootromLength binary pad / 4) ∧
      ∀ addr, m.dataO addr = BitVec.ofNat 32 (le 4 fun e =>
        (padded binary pad).getD
          (4 * (addr.toNat / 4 % (bootromLength binary pad / 4)) + e) 0#8) := by
  have hwidth := rom_wordWidth binary pad
  refine ⟨bootromLength_isLeast binary pad, rom binary pad, readModule_moduleText binary pad,
    rom_numWords binary pad, hwidth.1, hwidth.2, rom_labels binary pad, fun addr => ?_⟩
  rw [rom_dataO]
  simp only [padded, getD_zeros]

example : readModule (moduleText [0x93#8, 0x02#8, 0x30#8, 0x00#8, 0x6f#8] 0) =
    some ⟨2, [(0, 0x00300293#32), (1, 0x0000006f#32)]⟩ := by decide +kernel

end Bootrom
end Cheshire
