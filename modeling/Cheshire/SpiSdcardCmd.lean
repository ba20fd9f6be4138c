import Cheshire.SpiSdcardBus

/-!
# Commands of the SD card driver

What a command puts on the wire and what it waits for. The response to a command is a piece
(`awaitResponse_piece`); `Transfer` adds the command in front of it. From these come the commands
that open a transfer (`open_transfer`) and the two ways to close one (`endRead_piece`,
`endWrite_piece`).
-/

namespace Cheshire.SpiSdcard

open Lib Cmd

/-! ## Commands -/

section Commands

variable {bus : Bus} {cmd : U64} {resp : Resp} {rdata : Ptr} {m : Mem} {s : Spi}

theorem csfree_piece (hm : s.mem .ext = m) :
    Piece bus (csfree bus) (Scan.skip 0) (fun s' => s'.mem .ext = m ∧ Released s')
      (fun s' => s'.mem .ext = m) s := by
  refine Piece.of_calls ((transaction_other (fun _ _ => Segment.noConfusion) s).mono ?_ ?_)
  · intro _ s' h
    obtain ⟨hmem, hpos, hlog⟩ := h
    exact ⟨.single hlog (plain_dummy _ _ _), hpos, by rw [hmem, hm], s.log, hlog⟩
  · intro _ s' h
    obtain ⟨hfail, hmem, -, hlog⟩ := h
    exact ⟨hfail, .single hlog (plain_dummy _ _ _), by rw [hmem, hm]⟩

variable (bus) in
/-- The rest of a response after its first byte. -/
def restScan : Resp → Scan
  | .r1b => Scan.polled bus.wire (· = 0) r1bTimeout
  | resp => Scan.skip (respLen resp - 1)

variable (bus) in
/-- A response, after the stuff byte in the case of CMD12. -/
def responseScan (cmd : U64) (resp : Resp) : Scan :=
  (Scan.when (cmd &&& 0xFF = 0x4C) (Scan.skip 1)).seq
    ((Scan.polled bus.wire noResponse 8).seq (restScan bus resp))

variable (bus) in
/-- A response, and the end of being busy. -/
def busyScan : Scan :=
  (Scan.polled bus.wire noResponse 8).seq (Scan.polled bus.wire (· = 0) r1bTimeout)

theorem responseScan_r1b (h : cmd &&& 0xFF ≠ 0x4C) : responseScan bus cmd .r1b = busyScan bus := by
  unfold responseScan
  rw [Scan.when_neg h, Scan.skip_zero_seq]
  rfl

theorem responseScan_cmd12 :
    responseScan bus 0x61000000004C .r1b = (Scan.skip 1).seq (busyScan bus) := by
  unfold responseScan
  rw [Scan.when_pos (by decide)]
  rfl

theorem restScan_functional (resp : Resp) : (restScan bus resp).Functional := by
  unfold restScan
  cases resp with
  | r1b => exact Scan.polled_functional _ _ _
  | _ => exact Scan.skip_functional _

theorem restOfResponse_piece (hdst : rdata.1 ≠ .ext) (hm : s.mem .ext = m) (hcard : LastCard s) :
    Piece bus (restOfResponse bus resp rdata) (restScan bus resp)
      (fun s' => s'.mem .ext = m ∧ LastCard s') (fun s' => s'.mem .ext = m) s := by
  have hbytes (n : ℕ) (hn : n ≤ 2 ^ 64) :
      Piece bus (xferCsaat bus (some (rdata.add 1)) none n) (Scan.skip n)
        (fun s' => s'.mem .ext = m ∧ LastCard s') (fun s' => s'.mem .ext = m) s :=
    (receive_piece (rdata.add 1) hdst hn hm).mono (fun _ _ h => ⟨h.1, h.2.1⟩) fun _ h => h
  cases resp with
  | r1 => exact Piece.nothing ⟨hm, hcard⟩
  | r1b =>
    exact (poll_piece (.rdummy, 0) (by decide) (by decide) (by decide) hm).mono
      (fun _ _ h => ⟨h.1, h.2.1⟩) fun _ h => h
  | r2 => exact hbytes 1 (by decide)
  | r3 => exact hbytes 4 (by decide)
  | r7 => exact hbytes 4 (by decide)

/-- After a response the card is selected or released, as requested. -/
theorem awaitResponse_piece (hdst : rdata.1 ≠ .ext) (csaat : Bool) (hm : s.mem .ext = m) :
    Piece bus (awaitResponse bus cmd resp rdata csaat) (responseScan bus cmd resp)
      (fun s' => s'.mem .ext = m ∧ if csaat then LastCard s' else Released s')
      (fun s' => s'.mem .ext = m) s := by
  refine Piece.when_seq (X := fun s' => s'.mem .ext = m) (fun _ => ?_) (fun _ => hm)
    (Scan.skip_functional 1) fun s₁ hm₁ => ?_
  · exact (receive_piece (.rdummy, 0) (by decide) (by decide) hm).mono (fun _ _ h => h.1)
      fun _ h => h
  refine (poll_piece rdata hdst (by decide) (by decide) hm₁).seq (Scan.polled_functional _ _ _) ?_
  intro s₂ _ h
  obtain ⟨hm₂, hcard, -⟩ := h
  rw [← Scan.seq_skip_zero (L := restScan bus resp)]
  refine (restOfResponse_piece hdst hm₂ hcard).seq (restScan_functional resp) ?_
  intro s₃ _ h
  obtain ⟨hm₃, hcard₃⟩ := h
  cases csaat with
  | true => exact Piece.nothing ⟨hm₃, hcard₃⟩
  | false => exact csfree_piece hm₃

/-- The transmission of a command, or of the stop transaction. -/
def cmdTxn (cmd : U64) : Txn :=
  ⟨.card, true, .tx ((List.range (if cmd = 0xFD then 1 else 6)).map (byteOf cmd.toNat))⟩

/-- A command has been sent. -/
structure Sent (cmd : U64) (s s' : Spi) : Prop where
  log : s'.log = s.log ++ [cmdTxn cmd]
  pos : s'.pos = s.pos

/-- The log of a call that starts with a command. -/
theorem Sent.log_eq {s₁ s' : Spi} (h : Sent cmd s s₁) (h' : Grows s₁ s') :
    ∃ rest, s'.log = s.log ++ cmdTxn cmd :: rest ∧ ∀ t ∈ rest, t.Plain := by
  obtain ⟨rest, hrest, hplain⟩ := h'
  exact ⟨rest, by rw [hrest, h.log, ← List.append_cons], hplain⟩

theorem bytes_store (s : Spi) (p : Ptr) {n k : ℕ} (f : ℕ → Byte) (hk : k ≤ n) (hn : n ≤ 2 ^ 64) :
    (s.store p n f).bytes p k = (List.range k).map f := by
  refine List.map_congr_left fun i hi => load_store s p f ?_ hn
  exact (List.mem_range.1 hi).trans_le hk

theorem cmd_bytes_store (cmd : U64) (s : Spi) :
    (s.store (.cmd, 0) 8 (byteOf cmd.toNat)).bytes (.cmd, 0) (if cmd = 0xFD then 1 else 6) =
      (List.range (if cmd = 0xFD then 1 else 6)).map (byteOf cmd.toNat) :=
  bytes_store s _ _ (by split_ifs <;> decide) (by decide)

theorem sendCmd_ends (hm : s.mem .ext = m) :
    Ends (sendCmd bus cmd s) (fun _ s' => Sent cmd s s' ∧ s'.mem .ext = m)
      (fun e s' => CallFailed bus e ∧ Sent cmd s s' ∧ s'.mem .ext = m) := by
  show Ends (transaction bus ⟨.card, true, .tx ((s.store (.cmd, 0) 8 (byteOf cmd.toNat)).bytes
    (.cmd, 0) (if cmd = 0xFD then 1 else 6))⟩ (s.store (.cmd, 0) 8 (byteOf cmd.toNat))) _ _
  rw [cmd_bytes_store]
  have hstore : (s.store (.cmd, 0) 8 (byteOf cmd.toNat)).mem .ext = m := by
    rw [mem_store_of_ne s 8 _ (by decide), hm]
  refine (transaction_other (fun _ _ => Segment.noConfusion) _).mono ?_ ?_
  · intro _ s' h
    obtain ⟨hmem, hpos, hlog⟩ := h
    exact ⟨⟨hlog, hpos⟩, by rw [hmem, hstore]⟩
  · intro _ s' h
    obtain ⟨hfail, hmem, hpos, hlog⟩ := h
    exact ⟨hfail, ⟨hlog, hpos⟩, by rw [hmem, hstore]⟩

theorem sdCmd_eq (h : cmd ≠ 0) (csaat : Bool) : sdCmd bus cmd resp rdata csaat =
    sendCmd bus cmd >>= fun _ => awaitResponse bus cmd resp rdata csaat :=
  if_pos h

variable (bus) in
/-- What starts with sending a command and is a piece after that. -/
def Transfer (cmd : U64) (x : Sd Unit) (L : Scan) (X F : Spi → Prop) (s : Spi) : Prop :=
  Ends (x s) (fun _ s' => ∃ s₁, Sent cmd s s₁ ∧ Done L s₁ s' ∧ X s')
    (fun e s' => ∃ s₁, Sent cmd s s₁ ∧ Failed bus L e s₁ s' ∧ F s')

theorem Transfer.seq {x y : Sd Unit} {L M : Scan} {X Y F : Spi → Prop}
    (hx : Transfer bus cmd x L X F s) (hL : L.Functional)
    (hy : ∀ s₁, X s₁ → Piece bus y M Y F s₁) :
    Transfer bus cmd (x >>= fun _ => y) (L.seq M) Y F s := by
  refine (Ends.mono hx (fun _ _ h => h) ?_).bind ?_
  · intro _ s' h
    obtain ⟨s₁, hsent, hfail, hF⟩ := h
    exact ⟨s₁, hsent, hfail.seq, hF⟩
  intro _ s₂ h
  obtain ⟨s₁, hsent, hdone, hX⟩ := h
  refine Ends.mono (hy s₂ hX) ?_ ?_
  · intro _ s' h
    obtain ⟨hdone', hY⟩ := h
    exact ⟨s₁, hsent, hdone.seq hdone', hY⟩
  · intro _ s' h
    obtain ⟨hfail, hF⟩ := h
    exact ⟨s₁, hsent, hdone.failed hL hfail, hF⟩

theorem sdCmd_transfer (hcmd : cmd ≠ 0) (hdst : rdata.1 ≠ .ext) (csaat : Bool)
    (hm : s.mem .ext = m) :
    Transfer bus cmd (sdCmd bus cmd resp rdata csaat) (responseScan bus cmd resp)
      (fun s' => s'.mem .ext = m ∧ if csaat then LastCard s' else Released s')
      (fun s' => s'.mem .ext = m) s := by
  rw [sdCmd_eq hcmd]
  refine ((sendCmd_ends hm).mono (fun _ _ h => h) ?_).bind ?_
  · intro _ s' h
    obtain ⟨hfail, hsent, hm'⟩ := h
    exact ⟨s', hsent, failed_of_call hfail (.refl s'), hm'⟩
  · intro _ s₁ h
    obtain ⟨hsent, hm₁⟩ := h
    refine Ends.mono (awaitResponse_piece hdst csaat hm₁) ?_ ?_
    · intro _ s' h
      obtain ⟨hdone, hX⟩ := h
      exact ⟨s₁, hsent, hdone, hX⟩
    · intro _ s' h
      obtain ⟨hfail, hm'⟩ := h
      exact ⟨s₁, hsent, hfail, hm'⟩

/-- A command that opens no transfer is a piece, and on record if it was sent. -/
theorem sdCmd_piece (hplain : cmd ≠ 0 → (cmdTxn cmd).Plain) (hdst : rdata.1 ≠ .ext) (csaat : Bool)
    (hm : s.mem .ext = m) :
    Piece bus (sdCmd bus cmd resp rdata csaat) (responseScan bus cmd resp)
      (fun s' => s'.mem .ext = m ∧ (cmd ≠ 0 → cmdTxn cmd ∈ s'.log) ∧
        if csaat then LastCard s' else Released s')
      (fun s' => s'.mem .ext = m) s := by
  by_cases hcmd : cmd = 0
  · have h0 : sdCmd bus cmd resp rdata csaat = awaitResponse bus cmd resp rdata csaat :=
      if_neg (not_not.2 hcmd)
    rw [h0]
    exact (awaitResponse_piece hdst csaat hm).mono
      (fun _ _ h => ⟨h.1, fun hne => absurd hcmd hne, h.2⟩) fun _ h => h
  · refine (sdCmd_transfer hcmd hdst csaat hm).mono ?_ ?_
    · intro _ s' h
      obtain ⟨s₁, hsent, hdone, hm', hcs⟩ := h
      have hgrows : Grows s s₁ := .single hsent.log (hplain hcmd)
      refine ⟨⟨hgrows.trans hdone.grows, by rw [← hsent.pos]; exact hdone.scan⟩, hm', ?_, hcs⟩
      exact fun _ => hdone.grows.mem (by rw [hsent.log]; exact List.mem_concat_self)
    · intro _ s' h
      obtain ⟨s₁, hsent, hfail, hm'⟩ := h
      have hgrows : Grows s s₁ := .single hsent.log (hplain hcmd)
      refine ⟨⟨hfail.code, hgrows.trans hfail.grows, hfail.card, fun hn => ?_⟩, hm'⟩
      rw [← hsent.pos]
      exact hfail.scan hn

end Commands

/-! ## Opening a transfer -/

section Open

variable {bus : Bus} {op : Byte} {arg : BitVec 32} {m : Mem} {s : Spi}

/-- A command before its trailer is added. -/
def cmdBody (op : Byte) (arg : BitVec 32) : U64 :=
  op.setWidth 64 |||
    (arg.setWidth 64 >>> (8 * 3) &&& 0xFF) <<< (8 * 1) |||
    (arg.setWidth 64 >>> (8 * 2) &&& 0xFF) <<< (8 * 2) |||
    (arg.setWidth 64 >>> (8 * 1) &&& 0xFF) <<< (8 * 3) |||
    (arg.setWidth 64 >>> (8 * 0) &&& 0xFF) <<< (8 * 4)

theorem buildCmd_eq (op : Byte) (arg : BitVec 32) : buildCmd op arg =
    ((crc7 ((List.range 5).map (byteOf (cmdBody op arg).toNat))).setWidth 64 <<< 1 ||| 1) <<<
      (8 * 5) ||| cmdBody op arg := rfl

/-- The opcode, and the argument with its highest byte first. -/
theorem cmdBody_byte (op : Byte) (arg : BitVec 32) {i : ℕ} (hi : i < 8) :
    byteOf (cmdBody op arg).toNat i =
      if i = 0 then op else if i < 5 then byteOf arg.toNat (4 - i) else 0 := by
  unfold cmdBody
  simp only [byteOf_or, byteOf_field _ _ _ (show i < 8 by omega)]
  rw [byteOf_setWidth _ _ (by omega), byteOf_setWidth _ _ (by omega),
    byteOf_setWidth _ _ (by omega), byteOf_setWidth _ _ (by omega), byteOf_setWidth _ _ (by omega)]
  by_cases h0 : i = 0
  · subst h0
    simp [byteOf]
  · have hop : byteOf op.toNat i = 0#8 := byteOf_eq_zero <| op.isLt.trans_le <|
      Nat.pow_le_pow_right (n := 256) (by decide) (Nat.one_le_iff_ne_zero.2 h0)
    rw [hop, if_neg h0]
    obtain rfl | rfl | rfl | rfl | hge : i = 1 ∨ i = 2 ∨ i = 3 ∨ i = 4 ∨ 5 ≤ i := by omega
    · simp
    · simp
    · simp
    · simp
    · rw [if_neg (by omega), if_neg (by omega), if_neg (by omega), if_neg (by omega),
        if_neg (by omega)]
      rfl

/-- The bytes of a command before the trailer. -/
theorem buildCmd_byte (op : Byte) (arg : BitVec 32) {i : ℕ} (hi : i < 5) :
    byteOf (buildCmd op arg).toNat i = if i = 0 then op else byteOf arg.toNat (4 - i) := by
  rw [buildCmd_eq, byteOf_or, byteOf_shiftLeft _ _ _ (by omega), if_pos hi,
    cmdBody_byte op arg (by omega), if_pos hi]
  exact BitVec.zero_or

/-- The opcode of a command other than CMD12, and not the stop transaction or none at all. -/
abbrev IsOpcode (op : Byte) : Prop := op ≠ 0 ∧ op ≠ 0x4C ∧ op ≠ 0xFD

theorem isOpcode_ite {c : Prop} [Decidable c] {op' : Byte} (h : IsOpcode op) (h' : IsOpcode op') :
    IsOpcode (if c then op else op') := by
  split_ifs
  · exact h
  · exact h'

theorem buildCmd_ne {c : U64} (hc : byteOf c.toNat 0 ≠ op) : buildCmd op arg ≠ c := by
  rintro rfl
  exact hc (buildCmd_byte op arg (Nat.succ_pos 4))

theorem buildCmd_bytes (op : Byte) (arg : BitVec 32) :
    (List.range 6).map (byteOf (buildCmd op arg).toNat) =
      [op, byteOf arg.toNat 3, byteOf arg.toNat 2, byteOf arg.toNat 1, byteOf arg.toNat 0,
        byteOf (buildCmd op arg).toNat 5] := by
  show [_, _, _, _, _, _] = _
  rw [buildCmd_byte op arg (by decide), buildCmd_byte op arg (by decide),
    buildCmd_byte op arg (by decide), buildCmd_byte op arg (by decide),
    buildCmd_byte op arg (by decide)]
  rfl

/-- The first bytes of what is sent. -/
theorem cmdTxn_buildCmd (arg : BitVec 32) (hop : IsOpcode op) : ∃ crc, cmdTxn (buildCmd op arg) =
    ⟨.card, true, .tx [op, byteOf arg.toNat 3, byteOf arg.toNat 2, byteOf arg.toNat 1,
      byteOf arg.toNat 0, crc]⟩ := by
  refine ⟨byteOf (buildCmd op arg).toNat 5, ?_⟩
  have hne : buildCmd op arg ≠ 0xFD := buildCmd_ne fun h => hop.2.2 h.symm
  unfold cmdTxn
  rw [if_neg hne]
  rw [buildCmd_bytes]

theorem cmdTxn_opcode (hop : IsOpcode op) : (cmdTxn (buildCmd op arg)).opcode = some op := by
  obtain ⟨crc, h⟩ := cmdTxn_buildCmd arg hop
  rw [h]
  rfl

/-- The argument arrives whole. -/
theorem cmdTxn_argument (hop : IsOpcode op) :
    (cmdTxn (buildCmd op arg)).argument = arg.toNat := by
  obtain ⟨crc, h⟩ := cmdTxn_buildCmd arg hop
  rw [h]
  show le 4 (byteOf arg.toNat) = _
  rw [le_byteOf]
  exact Nat.mod_eq_of_lt arg.isLt

/-- It is not taken for CMD12. -/
theorem buildCmd_low (arg : BitVec 32) (hop : IsOpcode op) : buildCmd op arg &&& 0xFF ≠ 0x4C := by
  intro h
  have hand : (buildCmd op arg).toNat % 2 ^ 8 = 0x4C := by
    rw [← Nat.and_two_pow_sub_one_eq_mod]
    exact congrArg BitVec.toNat h
  refine hop.2.1 ?_
  rw [← buildCmd_byte op arg (Nat.succ_pos 4) |>.trans (if_pos rfl)]
  refine BitVec.eq_of_toNat_eq ?_
  rw [byteOf, pow_zero, Nat.div_one, BitVec.toNat_ofNat, hand]
  rfl

/-- Such a command waits for a response byte. -/
theorem open_transfer (bus : Bus) (arg : BitVec 32) (hop : IsOpcode op) (hm : s.mem .ext = m) :
    Transfer bus (buildCmd op arg) (sdCmd bus (buildCmd op arg) .r1 (.rx, 0) true)
      (Scan.polled bus.wire noResponse 8) (fun s' => s'.mem .ext = m ∧ s.pos ≤ s'.pos)
      (fun s' => s'.mem .ext = m) s := by
  have hlow : buildCmd op arg &&& 0xFF ≠ 0x4C := buildCmd_low arg hop
  have hscan : responseScan bus (buildCmd op arg) .r1 = Scan.polled bus.wire noResponse 8 := by
    unfold responseScan
    rw [Scan.when_neg hlow, Scan.skip_zero_seq]
    exact Scan.seq_skip_zero
  rw [← hscan]
  refine (sdCmd_transfer (buildCmd_ne fun h => hop.1 h.symm) (by decide) true hm).mono ?_ ?_
  · intro _ s' h
    obtain ⟨s₁, hsent, hdone, hm', -⟩ := h
    refine ⟨s₁, hsent, hdone, hm', ?_⟩
    obtain ⟨k, -, -, -, hk⟩ : Scan.polled bus.wire noResponse 8 s₁.pos s'.pos := hscan ▸ hdone.scan
    rw [hk, ← hsent.pos]
    omega
  · exact fun _ _ h => h

end Open

/-! ## Closing a transfer -/

/-- CMD12, or the stop transaction. -/
def Txn.Closes (t : Txn) : Prop := t.opcode = some 0x4C ∨ t.seg = .tx [0xFD]

section Close

variable {bus : Bus} {len : U64} {m : Mem} {s : Spi}

/-- Without a check, nothing follows the command. -/
theorem sdCmdCheck_unchecked (cmd : U64) (resp : Resp) (s : Spi) {Q : Unit → Spi → Prop}
    {E : CInt → Spi → Prop} (h : Ends (sdCmd bus cmd resp (.respBuf, 0) false s) Q E) :
    Ends (sdCmdCheck bus cmd resp false 0 s) Q E := by
  refine Ends.bind h fun _ s₁ hQ => ?_
  simp only [Bool.false_eq_true, false_and, if_false]
  exact hQ

theorem endRead_piece (hm : s.mem .ext = m) :
    Piece bus (endRead bus len) (Scan.when (len > 1) ((Scan.skip 1).seq (busyScan bus)))
      (fun s' => s'.mem .ext = m ∧ Released s' ∧ (len > 1 → ∃ t ∈ s'.log, t.Closes))
      (fun s' => s'.mem .ext = m) s := by
  have hstop : (cmdTxn 0x61000000004C).opcode = some 0x4C := rfl
  unfold endRead
  by_cases hlen : len > 1
  · rw [if_pos hlen, Scan.when_pos hlen, ← responseScan_cmd12]
    have hcmd : Piece bus (sdCmd bus 0x61000000004C .r1b (.respBuf, 0) false) _ _ _ s :=
      sdCmd_piece (fun _ => Or.inr hstop) (by decide) false hm
    refine (Ends.mono (sdCmdCheck_unchecked _ _ s hcmd) ?_ fun _ _ h => h)
    intro _ s' h
    obtain ⟨hdone, hm', hmem, hrel⟩ := h
    exact ⟨hdone, hm', hrel, fun _ => ⟨_, hmem (by decide), Or.inl hstop⟩⟩
  · rw [if_neg hlen, Scan.when_neg hlen]
    exact (csfree_piece hm).mono (fun _ _ h => ⟨h.1, h.2, fun h' => absurd h' hlen⟩) fun _ h => h

theorem endWrite_piece (hm : s.mem .ext = m) :
    Piece bus (endWrite bus len) (Scan.when (len > 1) (busyScan bus))
      (fun s' => s'.mem .ext = m ∧ Released s' ∧ (len > 1 → ∃ t ∈ s'.log, t.Closes))
      (fun s' => s'.mem .ext = m) s := by
  have hstop : (0xFD : U64) &&& 0xFF ≠ 0x4C := by decide
  unfold endWrite
  by_cases hlen : len > 1
  · rw [if_pos hlen, Scan.when_pos hlen, ← responseScan_r1b hstop]
    refine (sdCmd_piece (fun _ => Or.inl rfl) (by decide) false hm).mono ?_ fun _ h => h
    intro s' _ h
    obtain ⟨hm', hmem, hrel⟩ := h
    exact ⟨hm', hrel, fun _ => ⟨_, hmem (by decide), Or.inr rfl⟩⟩
  · rw [if_neg hlen, Scan.when_neg hlen]
    exact (csfree_piece hm).mono (fun _ _ h => ⟨h.1, h.2, fun h' => absurd h' hlen⟩) fun _ h => h

end Close

end Cheshire.SpiSdcard
