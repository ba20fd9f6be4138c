import Cheshire.SpiSdcardRead

/-!
# Releasing the SD card

After a transfer the card should be released, and a transfer of more than one block closed
(`Finished`). The driver does both at the very end of a regular run only: an error on the way
returns at once, with the card still selected.

**Theorem (`transfers_finished_iff`).** If no call of the SPI host library fails, a read or write
is finished if and only if it is not left early, which depends on the bytes of the card alone.
-/

namespace Cheshire.SpiSdcard

open Lib Cmd

/-- CMD18 or CMD25. -/
def Txn.Opens (t : Txn) : Prop := t.opcode = some 0x52 ∨ t.opcode = some 0x59

/-- Every transfer of more than one block has been closed. -/
def Closed (s : Spi) : Prop := ∀ l t l', s.log = l ++ t :: l' → t.Opens → ∃ u ∈ l', u.Closes

/-- The card is released and no transfer is open. -/
structure Finished (s : Spi) : Prop where
  released : Released s
  closed : Closed s

/-! ## Ends of a transfer -/

section Ends

variable {bus : Bus} {op : Byte} {arg : BitVec 32} {x : Sd Unit} {L : Scan} {X F : Spi → Prop}
  {s : Spi}

theorem LastCard.not_released (h : LastCard s) : ¬Released s := by
  intro hrel
  obtain ⟨l, t, hlog, hcs⟩ := h
  obtain ⟨l', hlog'⟩ := hrel
  rw [hlog'] at hlog
  obtain ⟨-, ht⟩ := List.append_inj' hlog rfl
  rw [← List.singleton_inj.1 ht] at hcs
  exact Cs.noConfusion hcs

theorem Txn.Plain.not_opens {t : Txn} (h : t.Plain) : ¬t.Opens := by
  intro hopens
  rcases h with h | h <;> rcases hopens with h' | h' <;> rw [h] at h'
  · exact Option.some_ne_none _ h'.symm
  · exact Option.some_ne_none _ h'.symm
  · exact absurd (Option.some.inj h') (by decide)
  · exact absurd (Option.some.inj h') (by decide)

theorem Txn.Closes.not_opens {t : Txn} (h : t.Closes) : ¬t.Opens := by
  rcases h with h | h
  · exact Txn.Plain.not_opens (Or.inr h)
  · refine Txn.Plain.not_opens (Or.inl ?_)
    unfold Txn.opcode
    rw [h]
    rfl

/-- What comes after the first command opens no transfer. -/
theorem closed_of_log {cmd : Txn} {rest : List Txn} (hlog : s.log = cmd :: rest)
    (hplain : ∀ t ∈ rest, t.Plain) (hclose : cmd.Opens → ∃ u ∈ s.log, u.Closes) : Closed s := by
  intro l t l' h hopens
  rw [hlog] at h
  cases l with
  | nil =>
    obtain ⟨rfl, rfl⟩ := List.cons.inj h
    obtain ⟨u, hu, hcloses⟩ := hclose hopens
    rw [hlog] at hu
    rcases List.mem_cons.1 hu with rfl | hu
    · exact absurd hopens hcloses.not_opens
    · exact ⟨u, hu, hcloses⟩
  | cons t₀ l =>
    obtain ⟨-, rfl⟩ := List.cons.inj h
    exact absurd hopens (hplain t (List.mem_append_right _ List.mem_cons_self)).not_opens

/-- A transfer is finished if it ends regularly, which is when the wire allows it. -/
theorem Transfer.finished_iff {cmd : U64} (h : Transfer bus cmd x L X F s) (hn : NoFail bus)
    (hs : s.log = [])
    (hX : ∀ s', X s' → Released s' ∧ ((cmdTxn cmd).Opens → ∃ t ∈ s'.log, t.Closes)) :
    Finished (returned x s).2 ↔ ∃ q, L s.pos q := by
  unfold Transfer at h
  unfold returned
  cases hres : x s with
  | ok _ s' =>
    rw [hres] at h
    obtain ⟨s₁, hsent, hdone, hend⟩ := h
    obtain ⟨hrel, hclose⟩ := hX s' hend
    obtain ⟨rest, hlog, hplain⟩ := hsent.log_eq hdone.grows
    rw [hs, List.nil_append] at hlog
    refine iff_of_true ⟨hrel, closed_of_log hlog hplain hclose⟩ ⟨s'.pos, ?_⟩
    rw [← hsent.pos]
    exact hdone.scan
  | error e s' =>
    rw [hres] at h
    obtain ⟨s₁, hsent, hfail, -⟩ := h
    refine iff_of_false (fun hfin => (hfail.card hn).not_released hfin.released) fun hq => ?_
    obtain ⟨q, hq⟩ := hq
    rw [← hsent.pos] at hq
    exact hfail.scan hn q hq

end Ends

/-! ## Writing -/

section Write

variable {bus : Bus} {s : Spi}

/-- Sending something that is not a command. -/
theorem transmit_ends (src : Ptr) {n : ℕ} (hn : n ≠ 6) (s : Spi) :
    Ends (xferCsaat bus none (some src) n s) (fun _ s' => Grows s s' ∧ s'.pos = s.pos)
      (fun e s' => CallFailed bus e ∧ Grows s s') := by
  have hplain : Txn.Plain ⟨.card, true, .tx (s.bytes src n)⟩ := by
    refine Or.inl (if_neg ?_)
    unfold Spi.bytes
    rw [List.length_map, List.length_range]
    exact hn
  show Ends (transaction bus ⟨.card, true, .tx (s.bytes src n)⟩ s) _ _
  refine (transaction_other (fun _ _ => Segment.noConfusion) s).mono ?_ ?_
  · exact fun _ s' h => ⟨.single h.2.2 hplain, h.2.1⟩
  · exact fun _ s' h => ⟨h.1, .single h.2.2.2 hplain⟩

/-- What fails only when a call does, and receives nothing. -/
theorem Piece.of_sending {x : Sd Unit}
    (h : Ends (x s) (fun _ s' => Grows s s' ∧ s'.pos = s.pos)
      (fun e s' => CallFailed bus e ∧ Grows s s')) :
    Piece bus x (Scan.skip 0) (fun _ => True) (fun _ => True) s :=
  Piece.of_calls (Ends.mono h (fun _ _ h => ⟨h.1, h.2, trivial⟩) fun _ _ h => ⟨h.1, h.2, trivial⟩)

theorem transmitChunks_ends (hdepth : 1 ≤ bus.rxDepth) (src : Ptr) (s : Spi) :
    Ends (forChunks bus (fun offs n => xferCsaat bus none (some (src.add offs)) n) s)
      (fun _ s' => Grows s s' ∧ s'.pos = s.pos) (fun e s' => CallFailed bus e ∧ Grows s s') := by
  refine forChunks_ends (I := fun _ s' => Grows s s' ∧ s'.pos = s.pos) hdepth ?_ ⟨.refl s, rfl⟩
  intro offs n hmod _ s₁ h
  obtain ⟨hgrows, hpos⟩ := h
  -- a whole number of words is not the length of a command
  refine Ends.mono (transmit_ends (src.add offs) (by omega) s₁) ?_ ?_
  · exact fun _ s' h => ⟨hgrows.trans h.1, h.2.trans hpos⟩
  · exact fun _ s' h => ⟨h.1, hgrows.trans h.2⟩

theorem sendBlock_piece (hdepth : 1 ≤ bus.rxDepth) (src : Ptr) (tok : Byte) (computeCrc : Bool)
    (s : Spi) :
    Piece bus (sendBlock bus src tok computeCrc) (Scan.skip 0) (fun _ => True) (fun _ => True)
      s := by
  refine (Piece.modify (X := fun _ => True) rfl rfl trivial).skip_seq fun s₁ _ => ?_
  refine (Piece.of_sending (transmit_ends (.tok, 0) (by decide) s₁)).skip_seq fun s₂ _ => ?_
  refine (Piece.of_sending (transmitChunks_ends hdepth src s₂)).skip_seq fun s₃ _ => ?_
  refine (Piece.modify (X := fun _ => True) rfl rfl trivial).skip_seq fun s₄ _ => ?_
  exact Piece.of_sending (transmit_ends (.crc, 0) (by decide) s₄)

variable (bus) in
/-- The data response of an accepted block. -/
def acceptedScan : Scan := fun p q => bus.wire p &&& 0x1F = 0x05 ∧ q = p + 1

variable (bus) in
/-- An accepted block, and the end of being busy. -/
def writtenScan : Scan := (acceptedScan bus).seq (busyScan bus)

theorem busyScan_functional : (busyScan bus).Functional :=
  (Scan.polled_functional _ _ _).seq (Scan.polled_functional _ _ _)

theorem acceptedScan_functional : (acceptedScan bus).Functional :=
  fun _ _ _ h h' => h.2.trans h'.2.symm

theorem awaitAccepted_piece (s : Spi) :
    Piece bus (awaitAccepted bus) (acceptedScan bus) (fun _ => True) (fun _ => True) s := by
  refine Ends.bind (Ends.mono (receive_ends (.rx, 0) (by decide) (n := 1) (by decide) s)
    (fun _ _ h => h) ?_) ?_
  · exact fun _ s' h => ⟨failed_of_call h.1 h.2.1, trivial⟩
  intro _ s₁ h
  obtain ⟨hgrows, hpos, -, hcard, hload⟩ := h
  show Ends ((if s₁.load (.rx, 0) 0 &&& 0x1F ≠ 0x05 then throw 0x22 else pure () : Sd Unit) s₁) _ _
  rw [hload 0 Nat.one_pos, Nat.add_zero]
  by_cases hacc : bus.wire s.pos &&& 0x1F = 0x05
  · rw [if_neg (not_not.2 hacc)]
    exact ⟨⟨hgrows, hacc, hpos⟩, trivial⟩
  · rw [if_pos hacc]
    exact ⟨⟨by decide, hgrows, fun _ => hcard, fun _ q hq => hacc hq.1⟩, trivial⟩

theorem writeBlock_piece (hdepth : 1 ≤ bus.rxDepth) (buf : U64) (tok : Byte) (computeCrc : Bool)
    (b : ℕ) (s : Spi) :
    Piece bus (writeBlock bus buf tok computeCrc b) (writtenScan bus) (fun _ => True)
      (fun _ => True) s := by
  refine (sendBlock_piece hdepth _ tok computeCrc s).skip_seq fun s₁ _ => ?_
  refine (awaitAccepted_piece s₁).seq acceptedScan_functional fun s₂ _ _ => ?_
  rw [← responseScan_r1b (show (0 : U64) &&& 0xFF ≠ 0x4C by decide)]
  exact (sdCmd_piece (fun h => absurd rfl h) (by decide) true rfl).mono (fun _ _ _ => trivial)
    fun _ _ => trivial

end Write

/-! ## All transfers -/

section Transfers

variable {bus : Bus} {buf block addr len : U64} {s : Spi}

/-- The command for writing `len` blocks. -/
def writeCmd (block len : U64) : U64 :=
  buildCmd (if len > 1 then 0x59 else 0x58) (block.setWidth 32)

theorem writeCmd_opcode (block len : U64) :
    (cmdTxn (writeCmd block len)).opcode = some (if len > 1 then 0x59 else 0x58) :=
  cmdTxn_opcode (isOpcode_ite (by decide) (by decide))

variable (bus) in
/-- What a write of `n` blocks accepts: a response, the data responses, and the response to the
stop transaction if there is more than one. -/
def writeScan (n : U64) : Scan :=
  (Scan.polled bus.wire noResponse 8).seq
    (((writtenScan bus).times n.toNat).seq (Scan.when (n > 1) (busyScan bus)))

theorem writeBlocks_eq (computeCrc : Bool) (hlen : len ≠ 0) :
    writeBlocks bus buf block len computeCrc =
      (sdCmd bus (writeCmd block len) .r1 (.rx, 0) true >>= fun _ =>
      xferCsaat bus none none 1 >>= fun _ =>
      Cmd.forStep len.toNat 1 (writeBlock bus buf (if len > 1 then 0xFC else 0xFE) computeCrc)
        len.toNat 0 >>= fun _ => endWrite bus len) :=
  if_neg hlen

theorem writeBlocks_transfer (hdepth : 1 ≤ bus.rxDepth) (computeCrc : Bool) (hlen : len ≠ 0) :
    Transfer bus (writeCmd block len) (writeBlocks bus buf block len computeCrc)
      (writeScan bus len)
      (fun s' => Released s' ∧ (len > 1 → ∃ t ∈ s'.log, t.Closes)) (fun _ => True) s := by
  have hopen : Transfer bus (writeCmd block len)
      (sdCmd bus (writeCmd block len) .r1 (.rx, 0) true) _ _ _ s :=
    open_transfer bus _ (isOpcode_ite (by decide) (by decide)) (Eq.refl (s.mem .ext))
  rw [writeBlocks_eq computeCrc hlen]
  refine Transfer.seq (hopen.mono (fun _ _ h => h) ?_) (Scan.polled_functional _ _ _) ?_
  · intro _ s' h
    obtain ⟨s₁, hsent, hfail, -⟩ := h
    exact ⟨s₁, hsent, hfail, trivial⟩
  intro s₁ _
  have hdummy : Piece bus (xferCsaat bus none none 1) (Scan.skip 0) (fun _ => True)
      (fun _ => True) s₁ := by
    refine Piece.of_sending ((transaction_other (fun _ _ => Segment.noConfusion) s₁).mono ?_ ?_)
    · exact fun _ s' h => ⟨.single h.2.2 (plain_dummy _ _ _), h.2.1⟩
    · exact fun _ s' h => ⟨h.1, .single h.2.2.2 (plain_dummy _ _ _)⟩
  refine hdummy.skip_seq fun s₂ _ => ?_
  refine (Piece.forStep (J := fun _ _ => True) (acceptedScan_functional.seq busyScan_functional)
    (fun b _ s _ => writeBlock_piece hdepth buf _ computeCrc b s) trivial).seq
    ((acceptedScan_functional.seq busyScan_functional).times _) fun s₃ _ _ => ?_
  exact (endWrite_piece rfl).mono (fun _ _ h => h.2) fun _ _ => trivial

/-- A command that opens a transfer under a condition only. -/
theorem opens_of_opcode {t : Txn} {c : Prop} [Decidable c] {a b : Byte}
    (h : t.opcode = some (if c then a else b)) (hb : b ≠ 0x52 ∧ b ≠ 0x59) (ho : t.Opens) : c := by
  by_contra hc
  rw [Txn.Opens, h, if_neg hc] at ho
  exact ho.elim (fun h => hb.1 (Option.some.inj h)) fun h => hb.2 (Option.some.inj h)

theorem writeCmd_opens : (cmdTxn (writeCmd block len)).Opens → len > 1 :=
  opens_of_opcode (writeCmd_opcode block len) (by decide)

theorem readCmd_opens : (cmdTxn (readCmd block len)).Opens → len > 1 :=
  opens_of_opcode (readCmd_opcode block len) (by decide)

/-- A read that has a block number of zero to read ends at once, and leaves the card as it was. -/
theorem sdRead_finished_iff (check : Bool) (hdepth : 1 ≤ bus.rxDepth) (hok : NoFail bus)
    (hs : s.log = []) (hlen : len ≠ 0) :
    Finished (returned (sdRead bus buf addr len check) s).2 ↔
      (alignOf addr len).len ≠ 0 ∧ ∃ q, readScan bus check (alignOf addr len).len s.pos q := by
  have heq : sdRead bus buf addr len check =
      readBlocks bus buf (addr / 512) (alignOf addr len) check := if_neg hlen
  rw [heq]
  by_cases hn : (alignOf addr len).len = 0
  · refine iff_of_false (fun hfin => ?_) fun h => h.1 hn
    have hnone : readBlocks bus buf (addr / 512) (alignOf addr len) check = pure () := if_pos hn
    rw [hnone] at hfin
    obtain ⟨l, hl⟩ := hfin.released
    have hlog : s.log = l ++ [_] := hl
    rw [hs] at hlog
    exact absurd hlog.symm (List.append_ne_nil_of_right_ne_nil _ (List.cons_ne_nil _ _))
  · have htrans : Transfer bus (readCmd (addr / 512) (alignOf addr len).len)
        (readBlocks bus buf (addr / 512) (alignOf addr len) check) _ _ _ s :=
      readBlocks_transfer (J := fun _ _ => True) (F := fun _ => True) hn (fun _ _ _ => trivial)
      (fun b _ s₁ _ => (readBlock_piece hdepth _ _ b rfl).mono (fun _ _ _ => trivial)
        fun _ _ => trivial) (fun _ _ => trivial) fun _ _ _ _ => trivial
    rw [htrans.finished_iff hok hs fun s' h => ⟨h.2.1, fun ho => h.2.2 (readCmd_opens ho)⟩]
    exact ⟨fun h => ⟨hn, h⟩, fun h => h.2⟩

/-- Reads and writes that are finished, of those in which no call of the SPI host library fails. -/
theorem transfers_finished_iff (bus : Bus) (hdepth : 1 ≤ bus.rxDepth) (hok : NoFail bus) (s : Spi)
    (hs : s.log = []) (buf addr block len : U64) (hlen : len ≠ 0) (computeCrc : Bool) :
    (Finished (spiSdcardReadCheckcrc bus buf addr len s).2 ↔
      (alignOf addr len).len ≠ 0 ∧ ∃ q, readScan bus true (alignOf addr len).len s.pos q) ∧
    (Finished (spiSdcardReadIgnorecrc bus buf addr len s).2 ↔
      (alignOf addr len).len ≠ 0 ∧ ∃ q, readScan bus false (alignOf addr len).len s.pos q) ∧
    (Finished (spiSdcardWriteBlocks bus buf block len computeCrc s).2 ↔
      ∃ q, writeScan bus len s.pos q) := by
  refine ⟨sdRead_finished_iff true hdepth hok hs hlen, sdRead_finished_iff false hdepth hok hs hlen,
    ?_⟩
  have htrans : Transfer bus (writeCmd block len)
      (writeBlocks bus buf block len computeCrc) _ _ _ s :=
    writeBlocks_transfer hdepth computeCrc hlen
  exact htrans.finished_iff hok hs fun s' h => ⟨h.1, fun ho => h.2 (writeCmd_opens ho)⟩

/-- The card of `zeroCard` is released after a read. -/
theorem transfers_finished_iff_zeros :
    Finished (spiSdcardReadCheckcrc zeroCard 0x1000 5 3 onesSpi).2 := by
  refine (transfers_finished_iff zeroCard (by decide) (fun _ => rfl) onesSpi rfl 0x1000 5 0 3
    (by decide) false).1.2 ⟨by decide, 516, 1, ?_, 516, ⟨516, ⟨2, ?_, fun _ => ?_, rfl⟩, rfl⟩, rfl⟩
  · exact ⟨0, by decide, fun j hj => absurd hj (Nat.not_lt_zero j), by decide, rfl⟩
  · exact ⟨⟨0, by decide, fun j hj => absurd hj (Nat.not_lt_zero j), by decide, rfl⟩, rfl⟩
  · unfold CrcOk
    decide +kernel

/-- A card that sends zeros only: a response, but never a token. -/
def tokenlessCard : Bus where
  wire _ := 0
  fails _ := none
  rxDepth := 64

/-- A read of two blocks that is left with the card selected and the transfer open. -/
theorem spiSdcardReadCheckcrc_unfinished :
    (spiSdcardReadCheckcrc tokenlessCard 0x1000 0 1024 onesSpi).1 = 0x20 ∧
    ¬Released (spiSdcardReadCheckcrc tokenlessCard 0x1000 0 1024 onesSpi).2 ∧
    ¬Closed (spiSdcardReadCheckcrc tokenlessCard 0x1000 0 1024 onesSpi).2 := by
  have hlog : (spiSdcardReadCheckcrc tokenlessCard 0x1000 0 1024 onesSpi).2.log =
      [cmdTxn (readCmd 0 2), ⟨.card, true, .rx (.rx, 0) 1⟩, ⟨.card, true, .rx (.rx, 0) 1⟩] := by
    decide +kernel
  refine ⟨by decide +kernel, ?_, fun hclosed => ?_⟩
  · exact LastCard.not_released ⟨[_, _], _, hlog, rfl⟩
  · obtain ⟨u, hu, hcloses⟩ := hclosed [] _ _ hlog (Or.inl (readCmd_opcode 0 2))
    obtain rfl : u = ⟨.card, true, .rx (.rx, 0) 1⟩ := by simpa using hu
    rcases hcloses with h | h
    · exact Option.some_ne_none _ h.symm
    · exact Segment.noConfusion h

end Transfers

end Cheshire.SpiSdcard
