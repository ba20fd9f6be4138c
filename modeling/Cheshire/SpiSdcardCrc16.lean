import Cheshire.Lib.CrcErrors
import Cheshire.SpiSdcardCheck

/-!
# The checksum of blocks: `__spi_sdcard_crc16`

The table holds the CRC16 of each byte. The code computes the remainder and swaps its bytes, which
makes it the number whose little endian bytes are the checksum as it stands on the wire, highest
byte first (`crc16_eq_iff`).

**Theorem (`corrupted_rejected`).** A block and its checksum that are received with an odd number
of wrong bits, with two wrong bits, or with wrong bits among 16 in a row do not match, and the read
returns 0x21.
-/

namespace Cheshire.SpiSdcard

open Lib Cmd Polynomial

/-! ## CRC16 -/

/-- The generator `X ^ 16 + X ^ 12 + X ^ 5 + 1`. -/
def crc16Gen : BitVec 16 := 0x1021

/-- The CRC16 of a message, by a shift register. -/
def crc16Spec (d : List Byte) : BitVec 16 := crcFrom crc16Gen 0 (d.flatMap bits)

/-- A block and its checksum, highest byte first. -/
def codeword (d : List Byte) : List Byte :=
  d ++ [byteOf (crc16Spec d).toNat 1, byteOf (crc16Spec d).toNat 0]

def crc16Table (b : Byte) : BitVec 16 := crc16Lookup.getD b.toNat 0

theorem genPoly_crc16Gen : genPoly crc16Gen = X ^ 16 + X ^ 12 + X ^ 5 + 1 := by
  have hword : wordPoly crc16Gen = ∑ i ∈ {0, 5, 12}, X ^ i :=
    wordPoly_eq_sum crc16Gen (by decide) (by decide)
  rw [genPoly, hword, Finset.sum_insert (by decide), Finset.sum_pair (by decide)]
  ring

theorem crc16Spec_rem (d : List Byte) : wordPoly (crc16Spec d) =
    (msgPoly (d.flatMap bits) * X ^ 16) %ₘ (X ^ 16 + X ^ 12 + X ^ 5 + 1) := by
  rw [crc16Spec, wordPoly_crcFrom, wordPoly_zero, zero_mul, zero_add, genPoly_crc16Gen]

theorem crc16Table_eq (b : Byte) : crc16Table b = crcFrom crc16Gen 0 (bits b) := by
  revert b
  decide +kernel

/-- One round of the loop. -/
def crc16Step (state : BitVec 16) (d : Byte) : BitVec 16 :=
  crc16Lookup.getD (d.setWidth 16 ^^^ state >>> 8).toNat 0 ^^^ state <<< 8

theorem crc16Step_eq (state : BitVec 16) (d : Byte) :
    crc16Step state d = crcFrom crc16Gen state (bits d) := by
  have hindex : (d.setWidth 16 ^^^ state >>> 8).toNat =
      (d ^^^ (state >>> (16 - 8)).setWidth 8).toNat := by
    have hstate := state.isLt
    have hd := d.isLt
    rw [BitVec.toNat_xor, BitVec.toNat_xor, BitVec.toNat_setWidth, BitVec.toNat_setWidth,
      BitVec.toNat_ushiftRight, Nat.shiftRight_eq_div_pow, Nat.mod_eq_of_lt (by omega),
      Nat.mod_eq_of_lt (by omega)]
  rw [crcFrom_bits_wide _ _ _ (by decide), ← crc16Table_eq, crc16Table, crc16Step, hindex]

theorem crc16_foldl (d : List Byte) : d.foldl crc16Step 0 = crc16Spec d := by
  have hfold (s : BitVec 16) : d.foldl crc16Step s = crcFrom crc16Gen s (d.flatMap bits) := by
    induction d generalizing s with
    | nil => rfl
    | cons b d ih =>
      rw [List.foldl_cons, List.flatMap_cons, crcFrom_append, crc16Step_eq, ih]
  exact hfold 0

theorem crc16_swap (d : List Byte) :
    crc16 d = (crc16Spec d &&& 0xFF) <<< 8 ||| (crc16Spec d &&& 0xFF00) >>> 8 := by
  rw [← crc16_foldl]
  rfl

/-- The bytes of the swapped remainder. -/
theorem byteOf_crc16 (d : List Byte) : byteOf (crc16 d).toNat 0 = byteOf (crc16Spec d).toNat 1 ∧
    byteOf (crc16 d).toNat 1 = byteOf (crc16Spec d).toNat 0 := by
  rw [crc16_swap]
  generalize crc16Spec d = s
  constructor
  · refine BitVec.eq_of_getLsbD_eq fun j hj => ?_
    rw [getLsbD_byteOf _ _ hj, getLsbD_byteOf _ _ hj]
    interval_cases j <;> simp
  · refine BitVec.eq_of_getLsbD_eq fun j hj => ?_
    rw [getLsbD_byteOf _ _ hj, getLsbD_byteOf _ _ hj]
    interval_cases j <;> simp

/-- A stored checksum matches if its bytes are those of the remainder, highest first. -/
theorem crc16_eq_iff (d : List Byte) (f : ℕ → Byte) :
    BitVec.ofNat 16 (le 2 f) = crc16 d ↔
      f 0 = byteOf (crc16Spec d).toNat 1 ∧ f 1 = byteOf (crc16Spec d).toNat 0 := by
  obtain ⟨h0, h1⟩ := byteOf_crc16 d
  have hlt : le 2 f < 2 ^ 16 := le_lt 2 f
  have hcrc : (crc16 d).toNat = le 2 (byteOf (crc16 d).toNat) := by
    rw [le_byteOf]
    exact (Nat.mod_eq_of_lt (crc16 d).isLt).symm
  rw [BitVec.toNat_eq, BitVec.toNat_ofNat, Nat.mod_eq_of_lt hlt, hcrc, le_inj, ← h0, ← h1]
  constructor
  · intro h
    exact ⟨h 0 (by decide), h 1 (by decide)⟩
  · intro ⟨hf0, hf1⟩ i hi
    interval_cases i
    · exact hf0
    · exact hf1

/-! ## Errors -/

/-- An odd number of errors, or two, or any that are among 16 bits in a row. -/
def Detectable (e : List Bool) : Prop :=
  e.count true % 2 = 1 ∨ e.count true = 2 ∨ true ∈ e ∧ IsBurst 16 e

/-- The register comes to `t` in at most `k` steps. -/
def comesTo {n : ℕ} (g t : BitVec n) : ℕ → BitVec n → Bool
  | 0, _ => false
  | k + 1, s => crcShift g s false == t || comesTo g t k (crcShift g s false)

theorem crcFrom_ne_of_comesTo {n : ℕ} {g t s : BitVec n} {m k : ℕ}
    (h : comesTo g t m s = false) (h0 : 0 < k) (hk : k ≤ m) :
    crcFrom g s (List.replicate k false) ≠ t := by
  induction m generalizing s k with
  | zero => omega
  | succ m ih =>
    obtain ⟨hne, hrest⟩ := Bool.or_eq_false_iff.1 h
    obtain ⟨k, rfl⟩ := Nat.exists_eq_add_of_le' h0
    rw [List.replicate_succ]
    show crcFrom g (crcShift g s false) (List.replicate k false) ≠ t
    cases k with
    | zero => exact beq_eq_false_iff_ne.1 hne
    | succ k => exact ih hrest (Nat.succ_pos k) (by omega)

/-- The order of `X` is more than the 4112 bits of a block and its checksum. -/
theorem crc16Gen_order {k : ℕ} (h0 : 0 < k) (hk : k < 4112) :
    crcFrom crc16Gen 1#16 (List.replicate k false) ≠ 1#16 :=
  crcFrom_ne_of_comesTo (m := 4111) (by decide +kernel) h0 (by omega)

theorem crcFrom_detectable {e : List Bool} (hlen : e.length = 4112) (h : Detectable e) :
    crcFrom crc16Gen 0 e ≠ 0 := by
  have hroot : (genPoly crc16Gen).eval 1 = 0 := by
    rw [genPoly_crc16Gen]
    simp only [eval_add, eval_pow, eval_X, one_pow, eval_one]
    decide
  rcases h with hodd | htwo | ⟨hone, hburst⟩
  · exact crcFrom_odd_ne_zero (by decide) rfl hroot hodd
  · exact crcFrom_two_ne_zero (by decide) rfl (fun k h0 hk => crc16Gen_order h0 (hlen ▸ hk)) htwo
  · exact crcFrom_burst_ne_zero (by decide) rfl hone hburst

/-! ## Corrupted blocks -/

/-- The bytes of `l`, with the bits flipped that are ones in `e`. -/
def corrupt (l e : List Byte) : List Byte := List.zipWith (· ^^^ ·) l e

theorem bits_xor (a b : Byte) : bits (a ^^^ b) = flips (bits a) (bits b) := by
  unfold bits flips
  rw [List.zipWith_map, List.zipWith_self]
  exact List.map_congr_left fun i _ => BitVec.getMsbD_xor

theorem flatMap_corrupt {l e : List Byte} (h : l.length = e.length) :
    (corrupt l e).flatMap bits = flips (l.flatMap bits) (e.flatMap bits) := by
  induction l generalizing e with
  | nil => rfl
  | cons a l ih =>
    obtain ⟨b, e, rfl⟩ := List.exists_cons_of_length_eq_add_one h.symm
    have hhead : (bits a).length = (bits b).length := by rw [length_bits, length_bits]
    show bits (a ^^^ b) ++ (corrupt l e).flatMap bits = _
    rw [ih (Nat.succ.inj h), bits_xor, List.flatMap_cons, List.flatMap_cons]
    exact (List.zipWith_append hhead).symm

theorem length_flatMap_bits (l : List Byte) : (l.flatMap bits).length = 8 * l.length := by
  induction l with
  | nil => rfl
  | cons a l ih =>
    rw [List.flatMap_cons, List.length_append, length_bits, ih, List.length_cons]
    omega

/-- The bits of a word are those of its bytes, highest first. -/
theorem bits_bytes (s : BitVec 16) :
    bits (byteOf s.toNat 1) ++ bits (byteOf s.toNat 0) = bits s := by
  have hbyte (i : ℕ) {j : ℕ} (hj : j < 8) :
      (byteOf s.toNat i).getMsbD j = s.getLsbD (8 * i + (7 - j)) := by
    rw [BitVec.getMsbD_eq_getLsbD, decide_eq_true hj, Bool.true_and, getLsbD_byteOf _ _ (by omega)]
  have hword {j : ℕ} (hj : j < 16) : s.getMsbD j = s.getLsbD (15 - j) := by
    rw [BitVec.getMsbD_eq_getLsbD, decide_eq_true hj, Bool.true_and]
  have hrange : List.range 16 = List.range 8 ++ (List.range 8).map (8 + ·) := rfl
  unfold bits
  rw [hrange, List.map_append, List.map_map]
  refine congrArg₂ _ (List.map_congr_left fun j hj => ?_) (List.map_congr_left fun j hj => ?_)
  · have hj := List.mem_range.1 hj
    rw [hbyte 1 hj, hword (by omega)]
    congr 1
    omega
  · have hj := List.mem_range.1 hj
    rw [Function.comp_apply, hbyte 0 hj, hword (by omega)]
    congr 1
    omega

theorem crcFrom_codewordBytes (d : List Byte) :
    crcFrom crc16Gen 0 ((codeword d).flatMap bits) = 0 := by
  have hbits : (codeword d).flatMap bits = d.flatMap bits ++ bits (crc16Spec d) := by
    rw [codeword, List.flatMap_append, ← bits_bytes]
    simp only [List.flatMap_cons, List.flatMap_nil, List.append_nil]
  rw [hbits]
  exact crcFrom_codeword _ _ _

variable (bus : Bus) in
/-- A block and its checksum, as they are received from position `p` on. -/
def blockAt (p : ℕ) : List Byte := (List.range 514).map fun i => bus.wire (p + i)

theorem blockAt_of_crcOk {bus : Bus} {p : ℕ} (h : CrcOk bus p) :
    blockAt bus p = codeword ((List.range 512).map fun i => bus.wire (p + i)) := by
  obtain ⟨h0, h1⟩ := (crc16_eq_iff _ _).1 h
  have hrange : List.range 514 = List.range 512 ++ [512, 513] := @List.range_add 512 2
  rw [codeword, ← h0, ← h1, blockAt, hrange, List.map_append]
  rfl

/-- Corrupted blocks do not match their checksums. -/
theorem not_crcOk {bus : Bus} {p : ℕ} {d e : List Byte} (hd : d.length = 512)
    (he : e.length = 514) (hdet : Detectable (e.flatMap bits))
    (hwire : blockAt bus p = corrupt (codeword d) e) : ¬CrcOk bus p := by
  intro hok
  have hlen : (codeword d).length = e.length := by
    rw [codeword, List.length_append, hd, he]
    rfl
  have hbits : (e.flatMap bits).length = 4112 := by rw [length_flatMap_bits, he]
  have hbytes : ((codeword d).flatMap bits).length = (e.flatMap bits).length := by
    rw [length_flatMap_bits, length_flatMap_bits, hlen]
  have hflips := crcFrom_flips crc16Gen 0 0 hbytes
  have hzero : (0 : BitVec 16) ^^^ 0 = 0 := rfl
  rw [hzero, ← flatMap_corrupt hlen, ← hwire, blockAt_of_crcOk hok,
    crcFrom_codewordBytes, crcFrom_codewordBytes] at hflips
  exact crcFrom_detectable hbits hdet (hflips.trans BitVec.zero_xor).symm

/-! ## The read -/

section Read

variable {bus : Bus} {buf addr len : U64} {b p : ℕ} {s : Spi}

variable (bus buf addr len) in
/-- The read gets the response to its command, `b` blocks, the token of the next, and from position
`p` on this block with its checksum, without a call that fails. -/
def ReadsBlock (b p : ℕ) (s : Spi) : Prop :=
  len ≠ 0 ∧ b < (alignOf addr len).len.toNat ∧ ∃ s₁ s₂ s₃ s₄,
    sdCmd bus (readCmd (addr / 512) (alignOf addr len).len) .r1 (.rx, 0) true s = .ok () s₁ ∧
    Cmd.forStep b 1 (readBlock bus (buf - (alignOf addr len).firstOffs) (alignOf addr len) true)
      b 0 s₁ = .ok () s₂ ∧
    awaitToken bus s₂ = .ok () s₃ ∧ s₃.pos = p ∧
    receiveData bus ((alignOf addr len).blockBuf b
      (buf - (alignOf addr len).firstOffs + BitVec.ofNat 64 (512 * b))) s₃ = .ok () s₄

/-- A block with a wrong checksum ends the read. -/
theorem read_rejects (hdepth : 1 ≤ bus.rxDepth) (hread : ReadsBlock bus buf addr len b p s)
    (hcrc : ¬CrcOk bus p) : (spiSdcardReadCheckcrc bus buf addr len s).1 = 0x21 := by
  obtain ⟨hlen, hb, s₁, s₂, s₃, s₄, hcmd, hpre, htok, rfl, hdata⟩ := hread
  have hn : (alignOf addr len).len ≠ 0 := by
    intro h0
    rw [h0] at hb
    exact absurd hb (Nat.not_lt_zero _)
  have hblock : readBlock bus (buf - (alignOf addr len).firstOffs) (alignOf addr len) true b s₂ =
      .error 0x21 s₄ := by
    unfold readBlock
    rw [bind_ok htok]
    exact bind_error (receiveBlock_rejects hdepth (blockBuf_ne_crc _ _ _) hdata hcrc)
  have hrun : sdRead bus buf addr len true s = .error 0x21 s₄ := by
    have hread : sdRead bus buf addr len true =
        readBlocks bus buf (addr / 512) (alignOf addr len) true := if_neg hlen
    rw [hread, readBlocks_eq hn, bind_ok hcmd]
    exact bind_error (forStep_error hb hpre hblock)
  unfold spiSdcardReadCheckcrc returned
  rw [hrun]

/-- **Main result.** A block of the read that is received with detectable errors fails the
comparison with its checksum, and the read returns 0x21. -/
theorem corrupted_rejected (hdepth : 1 ≤ bus.rxDepth) {d e : List Byte} (hd : d.length = 512)
    (he : e.length = 514) (hdet : Detectable (e.flatMap bits))
    (hread : ReadsBlock bus buf addr len b p s)
    (hwire : blockAt bus p = corrupt (codeword d) e) :
    wordPoly (crc16Spec d) =
      (msgPoly (d.flatMap bits) * X ^ 16) %ₘ (X ^ 16 + X ^ 12 + X ^ 5 + 1) ∧
    ¬CrcOk bus p ∧ (spiSdcardReadCheckcrc bus buf addr len s).1 = 0x21 :=
  have hcrc := not_crcOk hd he hdet hwire
  ⟨crc16Spec_rem d, hcrc, read_rejects hdepth hread hcrc⟩

/-- Where no call fails, this is up to the card. -/
theorem readsBlock_of_scan (hn : NoFail bus) (hdepth : 1 ≤ bus.rxDepth) (hlen : len ≠ 0)
    (hb : b < (alignOf addr len).len.toNat) {p₁ p₂ : ℕ}
    (hresp : Scan.polled bus.wire noResponse 8 s.pos p₁)
    (hblocks : (blockScan bus true).times b p₁ p₂) (htok : tokenScan bus p₂ p) :
    ReadsBlock bus buf addr len b p s := by
  have hcmd : Transfer bus (readCmd (addr / 512) (alignOf addr len).len)
      (sdCmd bus (readCmd (addr / 512) (alignOf addr len).len) .r1 (.rx, 0) true) _ _ _ s :=
    open_transfer bus _ (isOpcode_ite (by decide) (by decide)) (Eq.refl (s.mem .ext))
  obtain ⟨s₁, hs₁, hpos₁⟩ : ∃ s₁, sdCmd bus (readCmd (addr / 512) (alignOf addr len).len) .r1
      (.rx, 0) true s = .ok () s₁ ∧ s₁.pos = p₁ := by
    unfold Transfer at hcmd
    cases hr : sdCmd bus (readCmd (addr / 512) (alignOf addr len).len) .r1 (.rx, 0) true s with
    | ok u s₁ =>
      rw [hr] at hcmd
      obtain ⟨s₀, hsent, hdone, -⟩ := hcmd
      have hscan := hdone.scan
      rw [hsent.pos] at hscan
      exact ⟨s₁, rfl, Scan.polled_functional _ _ _ _ _ _ hscan hresp⟩
    | error e s₁ =>
      rw [hr] at hcmd
      obtain ⟨s₀, hsent, hfail, -⟩ := hcmd
      have hscan := hfail.scan hn p₁
      rw [hsent.pos] at hscan
      exact absurd hresp hscan
  have hloop : Piece bus (Cmd.forStep b 1 (readBlock bus (buf - (alignOf addr len).firstOffs)
      (alignOf addr len) true) b 0) ((blockScan bus true).times b) (fun _ => True) (fun _ => True)
      s₁ :=
    Piece.forStep (J := fun _ _ => True) blockScan_functional (fun b _ s _ =>
      (readBlock_piece hdepth _ _ b rfl).mono (fun _ _ _ => trivial) fun _ _ => trivial) trivial
  obtain ⟨s₂, hs₂, hpos₂, -⟩ := hloop.runs hn (blockScan_functional.times b) (hpos₁ ▸ hblocks)
  obtain ⟨s₃, hs₃, hpos₃, -⟩ := (awaitToken_piece (s := s₂) rfl).runs hn tokenScan_functional
    (hpos₂ ▸ htok)
  have hdata := receiveData_ends hdepth (blockBuf_ne_crc (alignOf addr len) b
    (buf - (alignOf addr len).firstOffs + BitVec.ofNat 64 (512 * b))) s₃
  obtain ⟨_, s₄, hs₄, -⟩ := ok_of_noFail hn hdata fun _ _ h => h.1
  exact ⟨hlen, hb, s₁, s₂, s₃, s₄, hs₁, hs₂, hs₃, hpos₃, hs₄⟩

end Read

/-- A block of zeros, whose checksum is 0, with the last bit wrong. -/
def lastBitCard : Bus where
  wire i := if i = 1 then 0xFE else if i = 515 then 1 else 0
  fails _ := none
  rxDepth := 64

/-- The error pattern. -/
def lastBit : List Byte := List.replicate 513 0 ++ [1]

theorem corrupted_rejected_lastBit :
    (spiSdcardReadCheckcrc lastBitCard 0x1000 5 3 onesSpi).1 = 0x21 := by
  have hread : ReadsBlock lastBitCard 0x1000 5 3 0 2 onesSpi :=
    readsBlock_of_scan (fun _ => rfl) (by decide) (by decide) (by decide)
      ⟨0, by decide, fun _ hj => absurd hj (Nat.not_lt_zero _), by decide, rfl⟩ rfl
      ⟨⟨0, by decide, fun _ hj => absurd hj (Nat.not_lt_zero _), by decide, rfl⟩, by decide⟩
  exact (corrupted_rejected (by decide) (d := List.replicate 512 0) (e := lastBit)
    (by decide +kernel) (by decide +kernel) (Or.inl (by decide +kernel)) hread
    (by decide +kernel)).2.2

end Cheshire.SpiSdcard
