import Cheshire.SpiSdcardBlock

/-!
# Reading a range of bytes from the SD card

A request is a range of bytes at any alignment. While its blocks are read, the destination holds
the requested bytes of the blocks so far, and nothing else has changed (`Filled`).

**Theorem (`spiSdcardReadCheckcrc_reads`).** Whatever it returns, a read changes no memory outside
the destination, and sends the one command for the block of the address. If it returns 0, the
destination holds the bytes that were asked for, out of blocks with a token in front and a right
checksum after them.
-/

namespace Cheshire.SpiSdcard

open Lib Cmd

/-! ## Blocks and bytes -/

/-- The number of blocks that a range of bytes touches. -/
def touched (addr len : ℕ) : ℕ := (len + addr % 512 + 511) / 512

/-- The number of bytes of the range in its first `b` blocks. -/
def filled (addr len b : ℕ) : ℕ := min (512 * b) (addr % 512 + len) - addr % 512

section Range

variable {addr len : U64} {b : ℕ}

theorem filled_zero (addr len : ℕ) : filled addr len 0 = 0 := by
  unfold filled
  omega

theorem filled_touched (addr len : ℕ) : filled addr len (touched addr len) = len := by
  unfold filled touched
  omega

theorem touched_eq_one {addr len : ℕ} (hlen : 1 ≤ len) :
    touched addr len = 1 ↔ addr / 512 = (addr + len - 1) / 512 := by
  unfold touched
  omega

theorem alignOf_len (hfit : addr.toNat + len.toNat ≤ 2 ^ 41) :
    (alignOf addr len).len.toNat = touched addr.toNat len.toNat := by
  have h511 : (511 : U64).toNat = 511 := rfl
  have h512 : (512 : U64).toNat = 512 := rfl
  unfold alignOf touched
  simp only [BitVec.toNat_udiv, BitVec.toNat_add, BitVec.toNat_umod, h511, h512]
  omega

theorem alignOf_lastLen (hfit : addr.toNat + len.toNat ≤ 2 ^ 41) :
    (alignOf addr len).lastLen.toNat =
      if (addr.toNat + len.toNat) % 512 = 0 then 512 else (addr.toNat + len.toNat) % 512 := by
  have hmod : ((addr + len) % 512).toNat = (addr.toNat + len.toNat) % 512 := by
    rw [BitVec.toNat_umod, BitVec.toNat_add,
      Nat.mod_eq_of_lt (a := addr.toNat + len.toNat) (by omega)]
    rfl
  have hdef : (alignOf addr len).lastLen =
      if (addr + len) % 512 = 0 then 512 else (addr + len) % 512 := rfl
  rw [hdef]
  by_cases h : (addr + len) % 512 = 0
  · rw [if_pos h, if_pos (by rw [← hmod, h]; rfl)]
    rfl
  · rw [if_neg h, if_neg, hmod]
    exact fun h0 => h (BitVec.eq_of_toNat_eq (hmod.trans h0))

theorem alignOf_firstOffs : (alignOf addr len).firstOffs.toNat = addr.toNat % 512 :=
  BitVec.toNat_umod ..

theorem startOf_alignOf : (alignOf addr len).startOf b = if b = 0 then addr.toNat % 512 else 0 := by
  have hoffs : (alignOf addr len).firstOffs.toNat = addr.toNat % 512 := alignOf_firstOffs
  unfold Align.startOf Align.firstBlock
  simp only [decide_eq_true_eq]
  by_cases hb : b = 0
  · by_cases h0 : (alignOf addr len).firstOffs = 0
    · rw [if_neg fun h => h.2 h0, if_pos hb, ← hoffs, h0]
      rfl
    · rw [if_pos ⟨hb, h0⟩, if_pos hb, hoffs]
  · rw [if_neg fun h => hb h.1, if_neg hb]

/-- The requested part of a block is next to that of the block before it. -/
theorem block_range (hlen : 1 ≤ len.toNat) (hfit : addr.toNat + len.toNat ≤ 2 ^ 41)
    (hb : b < touched addr.toNat len.toNat) :
    512 * b + (alignOf addr len).startOf b = addr.toNat % 512 + filled addr.toNat len.toNat b ∧
    512 * b + (alignOf addr len).endOf b =
      addr.toNat % 512 + filled addr.toNat len.toNat (b + 1) := by
  have hlast := alignOf_lastLen hfit
  have hn : ((alignOf addr len).len - 1).toNat = touched addr.toNat len.toNat - 1 := by
    rw [← alignOf_len hfit] at hb ⊢
    rw [BitVec.toNat_sub]
    show (2 ^ 64 - 1 + _) % 2 ^ 64 = _
    have := (alignOf addr len).len.isLt
    omega
  have hend : (alignOf addr len).endOf b =
      if b + 1 = touched addr.toNat len.toNat then (alignOf addr len).lastLen.toNat else 512 := by
    unfold Align.endOf Align.lastBlock
    simp only [decide_eq_true_eq, hn]
    by_cases hb1 : b + 1 = touched addr.toNat len.toNat
    · by_cases h512 : (alignOf addr len).lastLen = 512
      · rw [if_neg fun h => h.2 h512, if_pos hb1, h512]
        rfl
      · rw [if_pos ⟨by omega, h512⟩, if_pos hb1]
    · rw [if_neg fun h => hb1 (by omega), if_neg hb1]
  rw [hend, startOf_alignOf, hlast]
  unfold touched at *
  unfold filled
  constructor
  · split_ifs <;> omega
  · split_ifs <;> omega

end Range

/-! ## The destination -/

section Filled

variable {bus : Bus} {check : Bool} {addr len buf : U64} {m : Mem} {b p₀ : ℕ} {tok : ℕ → ℕ}
  {s s' : Spi}

variable (bus check addr len buf m p₀) in
/-- After `b` blocks: the token of block `k` is at `tok k`, and of the memory `m` of the caller
the requested bytes of these blocks have been written. -/
structure Filled (b : ℕ) (tok : ℕ → ℕ) (s : Spi) : Prop where
  token : ∀ k < b, bus.wire (tok k) = 0xFE
  crc : ∀ k < b, check = true → CrcOk bus (tok k + 1)
  within : ∀ k < b, p₀ ≤ tok k ∧ tok k + 515 ≤ s.pos
  apart : ∀ k, k + 1 < b → tok k + 515 ≤ tok (k + 1)
  since : p₀ ≤ s.pos
  ext : s.mem .ext = m.write buf (filled addr.toNat len.toNat b) fun i =>
    bus.wire (tok ((addr.toNat % 512 + i) / 512) + 1 + (addr.toNat % 512 + i) % 512)

/-- Where the requested part of a block goes. -/
theorem dst_eq (addr len buf : U64) {k j n : ℕ} (h : k + j = addr.toNat % 512 + n) :
    buf - (alignOf addr len).firstOffs + BitVec.ofNat 64 k + BitVec.ofNat 64 j =
      buf + BitVec.ofNat 64 n := by
  refine BitVec.eq_of_toNat_eq ?_
  simp only [BitVec.toNat_add, BitVec.toNat_sub, BitVec.toNat_ofNat, alignOf_firstOffs]
  omega

theorem filled_le {addr len b : ℕ} : filled addr len b ≤ len := by
  unfold filled
  omega

/-- The destination after one more block, which ends at the position of `s'`. -/
theorem Filled.ext_next (h : Filled bus check addr len buf m p₀ b tok s) (hlen : 1 ≤ len.toNat)
    (hfit : addr.toNat + len.toNat ≤ 2 ^ 41) (hb : b < touched addr.toNat len.toNat)
    (hpos : 515 ≤ s'.pos)
    (hext : s'.mem .ext = (s.mem .ext).write
      (buf - (alignOf addr len).firstOffs + BitVec.ofNat 64 (512 * b) +
        BitVec.ofNat 64 ((alignOf addr len).startOf b))
      ((alignOf addr len).endOf b - (alignOf addr len).startOf b)
      fun i => bus.wire (s'.pos - 514 + ((alignOf addr len).startOf b + i))) :
    s'.mem .ext = m.write buf (filled addr.toNat len.toNat (b + 1)) fun i =>
      bus.wire (Function.update tok b (s'.pos - 515) ((addr.toNat % 512 + i) / 512) + 1 +
        (addr.toNat % 512 + i) % 512) := by
  obtain ⟨hstart, hend⟩ := block_range hlen hfit hb
  have hle := (alignOf addr len).endOf_le b
  have hlen' : (alignOf addr len).endOf b - (alignOf addr len).startOf b =
      filled addr.toNat len.toNat (b + 1) - filled addr.toNat len.toNat b := by omega
  have hmono : filled addr.toNat len.toNat b ≤ filled addr.toNat len.toNat (b + 1) := by
    unfold filled
    omega
  have hbound : filled addr.toNat len.toNat (b + 1) ≤ len.toNat := filled_le
  have hsum : filled addr.toNat len.toNat b +
      (filled addr.toNat len.toNat (b + 1) - filled addr.toNat len.toNat b) =
        filled addr.toNat len.toNat (b + 1) := by omega
  have hbefore : ∀ i < filled addr.toNat len.toNat b,
      bus.wire (tok ((addr.toNat % 512 + i) / 512) + 1 + (addr.toNat % 512 + i) % 512) =
        bus.wire (Function.update tok b (s'.pos - 515) ((addr.toNat % 512 + i) / 512) + 1 +
          (addr.toNat % 512 + i) % 512) := by
    intro i hi
    have hne : (addr.toNat % 512 + i) / 512 ≠ b := by
      unfold filled at hi
      omega
    rw [Function.update_of_ne hne]
  have hblock : ∀ i < filled addr.toNat len.toNat (b + 1) - filled addr.toNat len.toNat b,
      bus.wire (s'.pos - 514 + ((alignOf addr len).startOf b + i)) =
        bus.wire (Function.update tok b (s'.pos - 515)
          ((addr.toNat % 512 + (filled addr.toNat len.toNat b + i)) / 512) + 1 +
            (addr.toNat % 512 + (filled addr.toNat len.toNat b + i)) % 512) := by
    intro i hi
    have hdiv : (addr.toNat % 512 + (filled addr.toNat len.toNat b + i)) / 512 = b := by omega
    have hmod : (addr.toNat % 512 + (filled addr.toNat len.toNat b + i)) % 512 =
        (alignOf addr len).startOf b + i := by omega
    have hidx : s'.pos - 514 + ((alignOf addr len).startOf b + i) =
        s'.pos - 515 + 1 + ((alignOf addr len).startOf b + i) := by omega
    rw [hdiv, hmod, Function.update_self, hidx]
  rw [hext, dst_eq addr len buf hstart, hlen', h.ext, Mem.write_congr hbefore,
    Mem.write_congr hblock, Mem.write_append (by omega), hsum]

/-- The requested part of one more block. -/
theorem Filled.next (h : Filled bus check addr len buf m p₀ b tok s) (hlen : 1 ≤ len.toNat)
    (hfit : addr.toNat + len.toNat ≤ 2 ^ 41) (hb : b < touched addr.toNat len.toNat)
    (hscan : blockScan bus check s.pos s'.pos)
    (hext : s'.mem .ext = (s.mem .ext).write
      (buf - (alignOf addr len).firstOffs + BitVec.ofNat 64 (512 * b) +
        BitVec.ofNat 64 ((alignOf addr len).startOf b))
      ((alignOf addr len).endOf b - (alignOf addr len).startOf b)
      fun i => bus.wire (s'.pos - 514 + ((alignOf addr len).startOf b + i))) :
    Filled bus check addr len buf m p₀ (b + 1) (Function.update tok b (s'.pos - 515)) s' := by
  obtain ⟨r, ⟨⟨k, -, -, -, hr⟩, htok⟩, hcrc, hq⟩ := hscan
  have hpos : s'.pos - 515 = r - 1 := by omega
  have hold (j : ℕ) (hj : j < b) : Function.update tok b (s'.pos - 515) j = tok j :=
    Function.update_of_ne hj.ne _ _
  have hnew : Function.update tok b (s'.pos - 515) b = s'.pos - 515 := Function.update_self _ _ _
  refine ⟨?_, ?_, ?_, ?_, by have := h.since; omega, h.ext_next hlen hfit hb (by omega) hext⟩
  · intro j hj
    rcases Nat.lt_succ_iff_lt_or_eq.1 hj with hj | rfl
    · rw [hold j hj]
      exact h.token j hj
    · rw [hnew, hpos]
      exact htok
  · intro j hj hc
    rcases Nat.lt_succ_iff_lt_or_eq.1 hj with hj | rfl
    · rw [hold j hj]
      exact h.crc j hj hc
    · rw [hnew, hpos, Nat.sub_add_cancel (by omega)]
      exact hcrc hc
  · intro j hj
    rcases Nat.lt_succ_iff_lt_or_eq.1 hj with hj | rfl
    · rw [hold j hj]
      have := h.within j hj
      omega
    · rw [hnew]
      have := h.since
      omega
  · intro j hj
    rw [hold j (by omega)]
    rcases Nat.lt_succ_iff_lt_or_eq.1 hj with hj | rfl
    · rw [hold (j + 1) hj]
      exact h.apart j hj
    · rw [hnew]
      have := h.within j (by omega)
      omega

/-- Bytes outside the destination are outside what a block that is not accepted may change. -/
theorem block_frame (hlen : 1 ≤ len.toNat) (hfit : addr.toNat + len.toNat ≤ 2 ^ 41)
    (hb : b < touched addr.toNat len.toNat) {x : U64} (hx : len.toNat ≤ (x - buf).toNat) :
    (alignOf addr len).buffered b = true ∨
      512 ≤ (x - (buf - (alignOf addr len).firstOffs + BitVec.ofNat 64 (512 * b))).toNat := by
  obtain ⟨hstart, hend⟩ := block_range hlen hfit hb
  cases hbuf : (alignOf addr len).buffered b with
  | true => exact Or.inl rfl
  | false =>
    obtain ⟨hfirst, hlast⟩ := Bool.or_eq_false_iff.1 hbuf
    have h0 : (alignOf addr len).startOf b = 0 := if_neg (by rw [hfirst]; exact Bool.false_ne_true)
    have h512 : (alignOf addr len).endOf b = 512 := if_neg (by rw [hlast]; exact Bool.false_ne_true)
    have hbound : filled addr.toNat len.toNat (b + 1) ≤ len.toNat := filled_le
    have hdst := dst_eq addr len buf hstart
    rw [h0, BitVec.add_zero] at hdst
    refine Or.inr (not_lt.1 fun hlt => ?_)
    rw [hdst] at hlt
    simp only [BitVec.toNat_sub, BitVec.toNat_add, BitVec.toNat_ofNat] at hlt hx
    omega

theorem readBlock_filled (hdepth : 1 ≤ bus.rxDepth) (hlen : 1 ≤ len.toNat)
    (hfit : addr.toNat + len.toNat ≤ 2 ^ 41) (hb : b < touched addr.toNat len.toNat)
    (h : ∃ tok, Filled bus check addr len buf m p₀ b tok s) :
    Piece bus (readBlock bus (buf - (alignOf addr len).firstOffs) (alignOf addr len) check b)
      (blockScan bus check) (fun s' => ∃ tok, Filled bus check addr len buf m p₀ (b + 1) tok s')
      (fun s' => ∀ x, len.toNat ≤ (x - buf).toNat → s'.mem .ext x = m x) s := by
  obtain ⟨tok, h⟩ := h
  obtain ⟨hstart, hend⟩ := block_range hlen hfit hb
  refine (readBlock_piece hdepth _ _ b rfl).mono ?_ ?_
  · intro s' hdone hext
    refine ⟨_, h.next hlen hfit hb hdone.scan (hext ?_)⟩
    unfold filled at hstart hend
    omega
  · intro s' hframe x hx
    have hbound : filled addr.toNat len.toNat b ≤ len.toNat := filled_le
    rw [hframe x (block_frame hlen hfit hb hx), h.ext, Mem.write_frame (hbound.trans hx)]

end Filled

/-! ## The whole range -/

section Read

variable {bus : Bus} {check : Bool} {addr len buf : U64} {m : Mem} {s : Spi}

theorem sdRead_eq (hlen : 1 ≤ len.toNat) :
    sdRead bus buf addr len check = readBlocks bus buf (addr / 512) (alignOf addr len) check := by
  refine if_neg ?_
  rintro rfl
  exact absurd hlen (by decide)

theorem sdRead_transfer (hdepth : 1 ≤ bus.rxDepth) (hlen : 1 ≤ len.toNat)
    (hfit : addr.toNat + len.toNat ≤ 2 ^ 41) (s : Spi) :
    Transfer bus (readCmd (addr / 512) (alignOf addr len).len) (sdRead bus buf addr len check)
      (readScan bus check (alignOf addr len).len)
      (fun s' => ∃ tok s₁, Filled bus check addr len buf (s.mem .ext) s.pos
        (touched addr.toNat len.toNat) tok s₁ ∧ s'.mem .ext = s₁.mem .ext)
      (fun s' => ∀ x, len.toNat ≤ (x - buf).toNat → s'.mem .ext x = s.mem .ext x) s := by
  have hn := alignOf_len hfit
  have hn0 : (alignOf addr len).len ≠ 0 := by
    intro h0
    rw [h0] at hn
    unfold touched at hn
    have h00 : (0 : U64).toNat = 0 := rfl
    omega
  rw [sdRead_eq hlen]
  refine (readBlocks_transfer (J := fun b s' => ∃ tok, Filled bus check addr len buf (s.mem .ext)
    s.pos b tok s') (F := fun s' => ∀ x, len.toNat ≤ (x - buf).toNat →
    s'.mem .ext x = s.mem .ext x) hn0 ?_ (fun b hb s₁ h => ?_)
    (fun s' h x _ => by rw [h]) ?_).mono ?_ ?_
  · intro s₁ hm hpos
    refine ⟨fun _ => 0, ?_, ?_, ?_, ?_, hpos, ?_⟩
    any_goals exact fun k hk => absurd hk (Nat.not_lt_zero _)
    rw [hm, filled_zero, Mem.write_zero]
  · exact readBlock_filled hdepth hlen hfit (hn ▸ hb) h
  · intro s₁ s' h hm x hx
    obtain ⟨tok, h⟩ := h
    rw [hm, h.ext, hn, filled_touched, Mem.write_frame hx]
  · intro _ s' h
    obtain ⟨s₁, hsent, hdone, ⟨s₂, ⟨tok, h⟩, hm⟩, -⟩ := h
    exact ⟨s₁, hsent, hdone, tok, s₂, hn ▸ h, hm⟩
  · exact fun _ _ h => h

/-- The command of a read, on the bus. -/
theorem readCmd_log {s₁ s' : Spi} (hlen : 1 ≤ len.toNat) (hfit : addr.toNat + len.toNat ≤ 2 ^ 41)
    (hsent : Sent (readCmd (addr / 512) (alignOf addr len).len) s s₁) (hgrows : Grows s₁ s') :
    ∃ cmd rest, s'.log = s.log ++ cmd :: rest ∧ cmd.argument = addr.toNat / 512 ∧
      cmd.opcode =
        some (if addr.toNat / 512 = (addr.toNat + len.toNat - 1) / 512 then 0x51 else 0x52) ∧
      ∀ t ∈ rest, t.Plain := by
  obtain ⟨rest, hlog, hplain⟩ := hsent.log_eq hgrows
  refine ⟨_, rest, hlog, ?_, ?_, hplain⟩
  · rw [readCmd_argument, BitVec.toNat_setWidth, BitVec.toNat_udiv]
    show addr.toNat / 512 % 2 ^ 32 = _
    omega
  · rw [readCmd_opcode]
    have hone : (alignOf addr len).len > 1 ↔
        ¬addr.toNat / 512 = (addr.toNat + len.toNat - 1) / 512 := by
      rw [← touched_eq_one hlen, ← alignOf_len hfit, gt_iff_lt, BitVec.lt_def]
      have h1 : (1 : U64).toNat = 1 := rfl
      have hpos : 1 ≤ (alignOf addr len).len.toNat := by
        rw [alignOf_len hfit]
        unfold touched
        omega
      omega
    by_cases h : addr.toNat / 512 = (addr.toNat + len.toNat - 1) / 512
    · rw [if_pos h, if_neg fun h' => hone.1 h' h]
    · rw [if_neg h, if_pos (hone.2 h)]

/-- A read of `len` bytes at `addr` into `buf`: (a) it changes nothing else, (b) the command it
sends, which no other read or write command follows, and (c) what it means that it returns 0. -/
theorem spiSdcardReadCheckcrc_reads (bus : Bus) (hdepth : 1 ≤ bus.rxDepth) (buf addr len : U64)
    (hlen : 1 ≤ len.toNat) (hfit : addr.toNat + len.toNat ≤ 2 ^ 41) (s : Spi) :
    (∀ x, len.toNat ≤ (x - buf).toNat →
      (spiSdcardReadCheckcrc bus buf addr len s).2.mem .ext x = s.mem .ext x) ∧
    (∃ cmd rest, (spiSdcardReadCheckcrc bus buf addr len s).2.log = s.log ++ cmd :: rest ∧
      cmd.argument = addr.toNat / 512 ∧
      cmd.opcode =
        some (if addr.toNat / 512 = (addr.toNat + len.toNat - 1) / 512 then 0x51 else 0x52) ∧
      ∀ t ∈ rest, t.Plain) ∧
    ((spiSdcardReadCheckcrc bus buf addr len s).1 = 0 → ∃ tok : ℕ → ℕ,
      (∀ k < touched addr.toNat len.toNat, s.pos ≤ tok k ∧
        bus.wire (tok k) = 0xFE ∧ CrcOk bus (tok k + 1)) ∧
      (∀ k, k + 1 < touched addr.toNat len.toNat → tok k + 515 ≤ tok (k + 1)) ∧
      ∀ i < len.toNat,
        (spiSdcardReadCheckcrc bus buf addr len s).2.mem .ext (buf + BitVec.ofNat 64 i) =
          bus.wire (tok ((addr.toNat % 512 + i) / 512) + 1 + (addr.toNat % 512 + i) % 512)) := by
  have hrun : Transfer bus _ (sdRead bus buf addr len true) _ _ _ s :=
    sdRead_transfer hdepth hlen hfit s
  unfold Transfer at hrun
  unfold spiSdcardReadCheckcrc returned
  cases hres : sdRead bus buf addr len true s with
  | ok _ s' =>
    rw [hres] at hrun
    obtain ⟨s₁, hsent, hdone, tok, s₂, hfilled, hext⟩ := hrun
    refine ⟨fun x hx => ?_, readCmd_log hlen hfit hsent hdone.grows, fun _ => ⟨tok, fun k hk =>
      ⟨(hfilled.within k hk).1, hfilled.token k hk, hfilled.crc k hk rfl⟩, hfilled.apart,
      fun i hi => ?_⟩⟩
    · rw [hext, hfilled.ext, filled_touched, Mem.write_frame hx]
    · rw [hext, hfilled.ext, filled_touched, Mem.write_read hi len.isLt.le]
  | error e s' =>
    rw [hres] at hrun
    obtain ⟨s₁, hsent, hfail, hframe⟩ := hrun
    exact ⟨hframe, readCmd_log hlen hfit hsent hfail.grows, fun h => absurd h hfail.code⟩

/-- A card that sends a token after its response, and zeros otherwise. -/
def zeroCard : Bus where
  wire i := if i = 1 then 0xFE else 0
  fails _ := none
  rxDepth := 64

/-- Memory full of ones, and nothing on record. -/
def onesSpi : Spi := ⟨fun _ _ => 0xFF, 0, []⟩

/-- Three bytes in the middle of a block of zeros. -/
theorem spiSdcardReadCheckcrc_reads_zeros :
    (spiSdcardReadCheckcrc zeroCard 0x1000 5 3 onesSpi).1 = 0 ∧
      ∃ tok : ℕ → ℕ, ∀ i < (3 : U64).toNat,
      (spiSdcardReadCheckcrc zeroCard 0x1000 5 3 onesSpi).2.mem .ext (0x1000 + BitVec.ofNat 64 i) =
        zeroCard.wire (tok (((5 : U64).toNat % 512 + i) / 512) + 1 +
          ((5 : U64).toNat % 512 + i) % 512) := by
  have hcode : (spiSdcardReadCheckcrc zeroCard 0x1000 5 3 onesSpi).1 = 0 := by decide +kernel
  obtain ⟨-, -, hread⟩ :=
    spiSdcardReadCheckcrc_reads zeroCard (by decide) 0x1000 5 3 (by decide) (by decide) onesSpi
  obtain ⟨tok, -, -, hbytes⟩ := hread hcode
  refine ⟨hcode, tok, fun i hi => ?_⟩
  rw [hbytes i hi]

end Read

end Cheshire.SpiSdcard
