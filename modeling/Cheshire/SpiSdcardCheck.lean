import Cheshire.SpiSdcardPoll

/-!
# Checking the response to a command: `__spi_sdcard_cmd_check`

A response is compared under a mask that is computed from a shift of an `int`; for the responses of
five bytes the shift is by 40. If the response is not the expected one, it is returned as the error
code, so that a response of zeros is returned as success.

**Theorem (`check_iff`).** The check does what it is for exactly if no long response is received,
and no response of zeros where another one is expected.
-/

namespace Cheshire.SpiSdcard

open Lib Cmd

/-! ## Responses -/

section Response

variable {bus : Bus} {cmd : U64} {resp : Resp} {rdata dst : Ptr} {csaat : Bool} {s : Spi}

/-- No exception has code 0. If no call fails, a command fails only if there is no response to
it. -/
theorem sdCmd_failed (hdst : rdata.1 ≠ .ext) {e : CInt} {s' : Spi}
    (h : sdCmd bus cmd resp rdata csaat s = .error e s') :
    e ≠ 0 ∧ (NoFail bus → ∀ q, ¬responseScan bus cmd resp s.pos q) := by
  by_cases hcmd : cmd = 0
  · subst hcmd
    have hpiece : Ends (sdCmd bus 0 resp rdata csaat s) _ _ :=
      @awaitResponse_piece bus 0 resp rdata (s.mem .ext) s hdst csaat rfl
    rw [h] at hpiece
    exact ⟨hpiece.1.code, hpiece.1.scan⟩
  · have htrans := @sdCmd_transfer bus cmd resp rdata (s.mem .ext) s hcmd hdst csaat rfl
    unfold Transfer at htrans
    rw [h] at htrans
    obtain ⟨s₁, hsent, hfail, -⟩ := htrans
    rw [← hsent.pos]
    exact ⟨hfail.code, hfail.scan⟩

/-- Polling changes no other object. -/
theorem poll_keeps {again : Byte → Bool} {code : CInt} (dst : Ptr) {o : Obj} (ho : o ≠ dst.1)
    (timeout : ℕ) (s : Spi) : Ends (poll bus timeout dst again code s)
      (fun _ s' => s'.mem o = s.mem o) fun _ _ => True := by
  have hloop : Ends (pollLoop bus dst again timeout s)
      (fun _ s' => s'.mem o = s.mem o) fun _ _ => True := by
    refine (pollLoop_rule (I := fun n s' => s'.mem o = s.mem o ∧ s'.pos = s.pos + n) (p := s.pos)
      ?_ timeout ⟨rfl, rfl⟩).mono ?_ fun _ _ h => h
    · rintro n s₁ ⟨hkeep, hpos⟩
      refine (transaction_rx .card true dst 1 s₁).mono ?_ fun _ _ _ => trivial
      intro _ s' h
      obtain ⟨hmem, hpos', -⟩ := h
      refine ⟨⟨by rw [hmem, mem_store_of_ne s₁ 1 _ ho, hkeep], by omega⟩, ?_⟩
      rw [load_congr hmem, load_store s₁ dst _ Nat.one_pos (by decide), hpos, Nat.add_zero]
    · intro t s' h
      obtain ⟨n, -, ⟨hkeep, -⟩, -⟩ := h
      exact hkeep
  refine hloop.bind fun t s' h => ?_
  split_ifs
  · trivial
  · exact h

/-- The first byte of a response, and what comes before it. -/
def firstScan (bus : Bus) (cmd : U64) : Scan :=
  (Scan.when (cmd &&& 0xFF = 0x4C) (Scan.skip 1)).seq (Scan.polled bus.wire noResponse 8)

theorem responseScan_eq (cmd : U64) (resp : Resp) {p q : ℕ} :
    responseScan bus cmd resp p q ↔ ∃ k, firstScan bus cmd p k ∧ restScan bus resp k q := by
  constructor
  · rintro ⟨j, hj, k, hk, hq⟩
    exact ⟨k, ⟨j, hj, hk⟩, hq⟩
  · rintro ⟨k, ⟨j, hj, hk⟩, hq⟩
    exact ⟨j, hj, k, hk, hq⟩

theorem firstScan_functional (cmd : U64) : (firstScan bus cmd).Functional :=
  ((Scan.skip_functional 1).when _).seq (Scan.polled_functional _ _ _)

/-- The bytes after the first one. -/
theorem restOfResponse_loads (hrdummy : rdata.1 ≠ .rdummy) {p : ℕ} (hpos : s.pos = p + 1)
    (hload : s.load rdata 0 = bus.wire p) :
    Ends (restOfResponse bus resp rdata s)
      (fun _ s' => restScan bus resp (p + 1) s'.pos ∧
        ∀ i < respLen resp, s'.load rdata i = bus.wire (p + i)) fun _ _ => True := by
  have hone {s' : Spi} (h : s'.load rdata 0 = bus.wire p) :
      ∀ i < 1, s'.load rdata i = bus.wire (p + i) := by
    intro i hi
    rw [Nat.lt_one_iff.1 hi]
    exact h
  have hmore (n : ℕ) (hn : n < 2 ^ 64) : Ends (xferCsaat bus (some (rdata.add 1)) none n s)
      (fun _ s' => Scan.skip n (p + 1) s'.pos ∧
        ∀ i < n + 1, s'.load rdata i = bus.wire (p + i)) fun _ _ => True := by
    refine (transaction_rx .card true (rdata.add 1) n s).mono ?_ fun _ _ _ => trivial
    intro _ s' h
    obtain ⟨hmem, hpos', -⟩ := h
    refine ⟨by rw [hpos', hpos]; rfl, fun i hi => ?_⟩
    have hstore := mem_store_self s (rdata.add 1) n fun i => bus.wire (s.pos + i)
    rw [load_congr hmem, Spi.load]
    refine (congrFun hstore _).trans ?_
    show (s.mem rdata.1).write (rdata.2 + BitVec.ofNat 64 1) n _ (rdata.2 + BitVec.ofNat 64 i) = _
    rw [Mem.write_offset (by omega) (by omega)]
    by_cases h0 : i = 0
    · subst h0
      rw [if_neg (by omega)]
      exact hload
    · rw [if_pos (by omega), hpos]
      congr 1
      omega
  cases resp with
  | r1 => exact ⟨hpos, hone hload⟩
  | r1b =>
    have hpoll := @poll_piece bus (· = 0) (.rdummy, 0) (by decide) r1bTimeout (by decide) 0x13
      (by decide) (s.mem .ext) s rfl
    have hkeep := @poll_keeps bus (· = 0) 0x13 (.rdummy, 0) rdata.1 hrdummy r1bTimeout s
    show Ends (poll bus r1bTimeout (.rdummy, 0) (· = 0) 0x13 s) _ _
    unfold Piece at hpoll
    cases hr : poll bus r1bTimeout (.rdummy, 0) (· = 0) 0x13 s with
    | error e s' => trivial
    | ok _ s' =>
      rw [hr] at hpoll hkeep
      refine ⟨?_, hone ?_⟩
      · rw [← hpos]
        exact hpoll.1.scan
      · rw [← hload]
        exact congrFun hkeep _
  | r2 => exact hmore 1 (by decide)
  | r3 => exact hmore 4 (by decide)
  | r7 => exact hmore 4 (by decide)

theorem awaitResponse_loads (cmd : U64) (resp : Resp) (hext : rdata.1 ≠ .ext)
    (hrdummy : rdata.1 ≠ .rdummy) (s : Spi) : Ends (awaitResponse bus cmd resp rdata false s)
      (fun _ s' => ∃ p, firstScan bus cmd s.pos (p + 1) ∧ restScan bus resp (p + 1) s'.pos ∧
        ∀ i < respLen resp, s'.load rdata i = bus.wire (p + i)) fun _ _ => True := by
  have hrest (s₁ : Spi) (hskip : Scan.when (cmd &&& 0xFF = 0x4C) (Scan.skip 1) s.pos s₁.pos) :
      Ends ((poll bus 8 rdata noResponse 0x12 >>= fun _ =>
        restOfResponse bus resp rdata >>= fun _ => csfree bus) s₁)
      (fun _ s' => ∃ p, firstScan bus cmd s.pos (p + 1) ∧ restScan bus resp (p + 1) s'.pos ∧
        ∀ i < respLen resp, s'.load rdata i = bus.wire (p + i)) fun _ _ => True := by
    refine Ends.bind (Ends.mono (@poll_piece bus noResponse rdata hext 8 (by decide)
      0x12 (by decide) (s₁.mem .ext) s₁ rfl) (fun _ _ h => h) fun _ _ _ => trivial) ?_
    intro _ s₂ h
    obtain ⟨hdone, -, -, hload⟩ := h
    obtain ⟨k, hk, hagain, hstop, hpos₂⟩ := hdone.scan
    rw [hpos₂, Nat.add_sub_cancel] at hload
    refine (restOfResponse_loads hrdummy hpos₂ hload).bind fun _ s₃ h => ?_
    obtain ⟨hscan, hbytes⟩ := h
    refine Ends.mono (transaction_other (fun _ _ => Segment.noConfusion) s₃) ?_ fun _ _ _ => trivial
    intro _ s' h
    obtain ⟨hmem, hpos, -⟩ := h
    refine ⟨s₁.pos + k, ⟨s₁.pos, hskip, k, hk, hagain, hstop, rfl⟩, ?_, fun i hi => ?_⟩
    · rw [hpos]
      exact hscan
    · rw [load_congr hmem]
      exact hbytes i hi
  unfold awaitResponse
  by_cases hstuff : cmd &&& 0xFF = 0x4C
  · rw [if_pos hstuff]
    refine Ends.bind (Ends.mono (transaction_rx .card true (.rdummy, 0) 1 s) (fun _ _ h => h)
      fun _ _ _ => trivial) fun _ s₁ h => hrest s₁ ?_
    rw [Scan.when_pos hstuff]
    exact h.2.1
  · rw [if_neg hstuff]
    refine hrest s ?_
    rw [Scan.when_neg hstuff]
    rfl

/-- The response of a command that succeeds is left where it is asked for. -/
theorem sdCmd_loads (cmd : U64) (resp : Resp) (hext : rdata.1 ≠ .ext)
    (hrdummy : rdata.1 ≠ .rdummy) (s : Spi) : Ends (sdCmd bus cmd resp rdata false s)
      (fun _ s' => ∃ p, firstScan bus cmd s.pos (p + 1) ∧ restScan bus resp (p + 1) s'.pos ∧
        ∀ i < respLen resp, s'.load rdata i = bus.wire (p + i)) fun _ _ => True := by
  by_cases hcmd : cmd = 0
  · subst hcmd
    exact awaitResponse_loads 0 resp hext hrdummy s
  · rw [sdCmd_eq hcmd]
    refine Ends.bind (Ends.mono (sendCmd_ends (Eq.refl (s.mem .ext))) (fun _ _ h => h)
      fun _ _ _ => trivial) fun _ s₁ h => ?_
    rw [← h.1.pos]
    exact awaitResponse_loads cmd resp hext hrdummy s₁

end Response

/-! ## The comparison -/

section Compare

variable {bus : Bus} {cmd : U64} {resp : Resp} {checkExp : Bool} {exp : U64} {s : Spi}

theorem respLen_le (resp : Resp) : respLen resp ≤ 8 := by cases resp <;> decide

/-- For the short responses, the mask has as many bytes as the response. -/
theorem respMask_eq (bus : Bus) (hresp : respLen resp < 5) (x : U64) :
    (x &&& (shiftedOne bus (8 * respLen resp) - 1).signExtend 64).toNat =
      x.toNat % 256 ^ respLen resp := by
  have hone : (shiftedOne bus (8 * 1) - 1).signExtend 64 = BitVec.ofNat 64 (2 ^ (8 * 1) - 1) := by
    rw [shiftedOne, if_pos (by decide)]
    decide
  have htwo : (shiftedOne bus (8 * 2) - 1).signExtend 64 = BitVec.ofNat 64 (2 ^ (8 * 2) - 1) := by
    rw [shiftedOne, if_pos (by decide)]
    decide
  have hand (n : ℕ) (hn : 8 * n < 64) :
      (x &&& BitVec.ofNat 64 (2 ^ (8 * n) - 1)).toNat = x.toNat % 256 ^ n := by
    have hpow : 2 ^ (8 * n) < 2 ^ 64 := Nat.pow_lt_pow_right (by decide) hn
    rw [BitVec.toNat_and, BitVec.toNat_ofNat, Nat.mod_eq_of_lt (by omega),
      Nat.and_two_pow_sub_one_eq_mod, pow_mul]
    norm_num
  cases resp with
  | r1 => exact hone ▸ hand 1 (by decide)
  | r1b => exact hone ▸ hand 1 (by decide)
  | r2 => exact htwo ▸ hand 2 (by decide)
  | r3 => exact absurd hresp (lt_irrefl 5)
  | r7 => exact absurd hresp (lt_irrefl 5)

/-- The bytes in the buffer of `__spi_sdcard_cmd_check` after the command. -/
def received (bus : Bus) (cmd : U64) (resp : Resp) (s : Spi) (i : ℕ) : Byte :=
  (returned (sdCmd bus cmd resp (.respBuf, 0) false) s).2.load (.respBuf, 0) i

/-- A response of zeros is accepted, whatever is expected. -/
theorem check_accepts (hresp : respLen resp < 5) :
    (returned (sdCmdCheck bus cmd resp checkExp exp) s).1 = 0 ↔
      (returned (sdCmd bus cmd resp (.respBuf, 0) false) s).1 = 0 ∧
        (checkExp = false ∨ (∀ i < respLen resp, received bus cmd resp s i = byteOf exp.toNat i) ∨
          ∀ i < respLen resp, received bus cmd resp s i = 0) := by
  unfold received returned
  cases hr : sdCmd bus cmd resp (.respBuf, 0) false s with
  | error e s' =>
    have hcheck : sdCmdCheck bus cmd resp checkExp exp s = .error e s' := bind_error hr
    have hne := (sdCmd_failed (by decide) hr).1
    rw [hcheck]
    exact iff_of_false hne fun h => hne h.1
  | ok _ s' =>
    generalize hbuf : BitVec.ofNat 64 (le 8 (s'.load (.respBuf, 0))) = buf
    generalize hmask : (shiftedOne bus (8 * respLen resp) - 1).signExtend 64 = mask
    have hcheck : sdCmdCheck bus cmd resp checkExp exp s =
        (if checkExp = true ∧ buf &&& mask ≠ exp &&& mask
          then throw ((buf &&& mask).setWidth 32) else pure () : Sd Unit) s' := by
      rw [← hbuf, ← hmask]
      exact bind_ok hr
    have hlow : (buf &&& mask).toNat = le (respLen resp) (s'.load (.respBuf, 0)) := by
      have h8 : le 8 (s'.load (.respBuf, 0)) < 2 ^ 64 := le_lt 8 _
      rw [← hmask, respMask_eq bus hresp, ← hbuf, BitVec.toNat_ofNat, Nat.mod_eq_of_lt h8,
        le_mod (respLen_le resp)]
    have hexp : (exp &&& mask).toNat = le (respLen resp) (byteOf exp.toNat) := by
      rw [← hmask, respMask_eq bus hresp, le_byteOf]
    have heq : buf &&& mask = exp &&& mask ↔
        ∀ i < respLen resp, s'.load (.respBuf, 0) i = byteOf exp.toNat i := by
      rw [← BitVec.toNat_inj, hlow, hexp, le_inj]
    have hzero : (buf &&& mask).setWidth 32 = 0 ↔
        ∀ i < respLen resp, s'.load (.respBuf, 0) i = 0 := by
      have hsmall : le (respLen resp) (s'.load (.respBuf, 0)) < 2 ^ 32 :=
        (le_lt _ _).trans_le (Nat.pow_le_pow_right (show 256 > 0 by decide)
          (show respLen resp ≤ 4 by omega))
      have h0 : le (respLen resp) (fun _ => 0) = 0 := by cases resp <;> rfl
      rw [← BitVec.toNat_inj, BitVec.toNat_setWidth, hlow, Nat.mod_eq_of_lt hsmall, ← le_inj, h0]
      rfl
    rw [hcheck, ← heq, ← hzero]
    by_cases hbad : checkExp = true ∧ buf &&& mask ≠ exp &&& mask
    · rw [if_pos hbad]
      obtain ⟨hcheckExp, hne⟩ := hbad
      refine ⟨fun h => ⟨rfl, Or.inr (Or.inr h)⟩, fun h => ?_⟩
      rcases h.2 with h | h | h
      · exact Bool.noConfusion (hcheckExp.symm.trans h)
      · exact absurd h hne
      · exact h
    · rw [if_neg hbad]
      refine iff_of_true rfl ⟨rfl, ?_⟩
      cases checkExp with
      | false => exact Or.inl rfl
      | true => exact Or.inr (Or.inl (not_not.1 fun hne => hbad ⟨rfl, hne⟩))

/-! ## Main result -/

/-- What the check of a response is for. The `int` is shifted once the command has succeeded. -/
structure CheckMeets (bus : Bus) (cmd : U64) (resp : Resp) (checkExp : Bool) (exp : U64) (s : Spi) :
    Prop where
  shift : (returned (sdCmd bus cmd resp (.respBuf, 0) false) s).1 = 0 → 8 * respLen resp < 32
  accepts : (returned (sdCmdCheck bus cmd resp checkExp exp) s).1 = 0 ↔
    (returned (sdCmd bus cmd resp (.respBuf, 0) false) s).1 = 0 ∧
      (checkExp = false ∨ ∀ i < respLen resp, received bus cmd resp s i = byteOf exp.toNat i)

/-- The command succeeds, with a response of zeros. -/
def ZeroReceived (bus : Bus) (cmd : U64) (resp : Resp) (s : Spi) : Prop :=
  (returned (sdCmd bus cmd resp (.respBuf, 0) false) s).1 = 0 ∧
    ∀ i < respLen resp, received bus cmd resp s i = 0

/-- The card sends a response: after less than eight bytes it is there, and a busy card is ready in
time. -/
def Answers (bus : Bus) (cmd : U64) (resp : Resp) (p : ℕ) : Prop :=
  ∃ q, responseScan bus cmd resp p q

/-- The card sends a response of zeros. -/
def ZeroAnswer (bus : Bus) (cmd : U64) (resp : Resp) (p : ℕ) : Prop :=
  ∃ k q, firstScan bus cmd p (k + 1) ∧ restScan bus resp (k + 1) q ∧
    ∀ i < respLen resp, bus.wire (k + i) = 0

theorem sdCmd_iff (hn : NoFail bus) :
    (returned (sdCmd bus cmd resp (.respBuf, 0) false) s).1 = 0 ↔ Answers bus cmd resp s.pos := by
  unfold returned
  cases hr : sdCmd bus cmd resp (.respBuf, 0) false s with
  | error e s' =>
    obtain ⟨hcode, hscan⟩ := sdCmd_failed (by decide) hr
    exact iff_of_false hcode fun h => h.elim fun q hq => hscan hn q hq
  | ok _ s' =>
    have hloads := @sdCmd_loads bus (.respBuf, 0) cmd resp (by decide) (by decide) s
    rw [hr] at hloads
    obtain ⟨p, hfirst, hrest, -⟩ := hloads
    exact iff_of_true rfl ⟨s'.pos, (responseScan_eq cmd resp).2 ⟨p + 1, hfirst, hrest⟩⟩

theorem zeroReceived_iff (hn : NoFail bus) :
    ZeroReceived bus cmd resp s ↔ ZeroAnswer bus cmd resp s.pos := by
  unfold ZeroReceived received returned
  cases hr : sdCmd bus cmd resp (.respBuf, 0) false s with
  | error e s' =>
    obtain ⟨hcode, hscan⟩ := sdCmd_failed (by decide) hr
    refine iff_of_false (fun h => hcode h.1) ?_
    rintro ⟨k, q, hfirst, hrest, -⟩
    exact hscan hn q ((responseScan_eq cmd resp).2 ⟨_, hfirst, hrest⟩)
  | ok _ s' =>
    have hloads := @sdCmd_loads bus (.respBuf, 0) cmd resp (by decide) (by decide) s
    rw [hr] at hloads
    obtain ⟨p, hfirst, hrest, hbytes⟩ := hloads
    constructor
    · rintro ⟨-, hzero⟩
      exact ⟨p, s'.pos, hfirst, hrest, fun i hi => (hbytes i hi).symm.trans (hzero i hi)⟩
    · rintro ⟨k, q, hfirst', -, hzero⟩
      obtain rfl : k = p := by
        have := firstScan_functional cmd _ _ _ hfirst hfirst'
        omega
      exact ⟨rfl, fun i hi => (hbytes i hi).trans (hzero i hi)⟩

/-- **Main result.** The check does what it is for exactly if the card sends no long response, and
no response of zeros where another one is expected. -/
theorem check_iff (hn : NoFail bus) :
    CheckMeets bus cmd resp checkExp exp s ↔
      (Answers bus cmd resp s.pos → respLen resp < 5) ∧
        ¬(checkExp = true ∧ (∃ i < respLen resp, byteOf exp.toNat i ≠ 0) ∧
          ZeroAnswer bus cmd resp s.pos) := by
  rw [← zeroReceived_iff hn, ← sdCmd_iff hn]
  constructor
  · intro hmeets
    have hresp (hok : (returned (sdCmd bus cmd resp (.respBuf, 0) false) s).1 = 0) :
        respLen resp < 5 := by
      have := hmeets.shift hok
      omega
    refine ⟨hresp, ?_⟩
    rintro ⟨hcheck, ⟨i, hi, hne⟩, hok, hzero⟩
    have haccepts := (@check_accepts bus cmd resp checkExp exp s (hresp hok)).2
      ⟨hok, Or.inr (Or.inr hzero)⟩
    rcases (hmeets.accepts.1 haccepts).2 with h | h
    · exact Bool.noConfusion (hcheck.symm.trans h)
    · exact hne ((h i hi).symm.trans (hzero i hi))
  · rintro ⟨hshort, hnot⟩
    by_cases hok : (returned (sdCmd bus cmd resp (.respBuf, 0) false) s).1 = 0
    · have hresp := hshort hok
      refine ⟨fun _ => ?_, ?_⟩
      · have hlen : respLen resp ≤ 2 := by cases resp <;> revert hresp <;> decide
        omega
      rw [check_accepts hresp]
      refine and_congr_right fun hok => ⟨?_, fun h => h.imp_right Or.inl⟩
      rintro (h | h | hzero)
      · exact Or.inl h
      · exact Or.inr h
      · cases hcheck : checkExp with
        | false => exact Or.inl rfl
        | true =>
          refine Or.inr fun i hi => (hzero i hi).trans (not_not.1 fun hne => ?_)
          exact hnot ⟨hcheck, ⟨i, hi, fun h => hne h.symm⟩, hok, hzero⟩
    · -- the command fails, and its code is returned before the shift
      have hfail : (returned (sdCmdCheck bus cmd resp checkExp exp) s).1 ≠ 0 := by
        unfold returned at hok ⊢
        cases hr : sdCmd bus cmd resp (.respBuf, 0) false s with
        | error e s' =>
          rw [hr] at hok
          rw [show sdCmdCheck bus cmd resp checkExp exp s = .error e s' from bind_error hr]
          exact hok
        | ok _ s' =>
          rw [hr] at hok
          exact absurd rfl hok
      exact ⟨fun h => absurd h hok, iff_of_false hfail fun h => hok h.1⟩

/-- CMD0 also accepts a card that is not idle. -/
theorem cmd0_accepts (bus : Bus) (s : Spi) :
    (returned (sdCmdCheck bus 0x950000000040 .r1 true 0x01) s).1 = 0 ↔
      (returned (sdCmd bus 0x950000000040 .r1 (.respBuf, 0) false) s).1 = 0 ∧
        (received bus 0x950000000040 .r1 s 0 = 0x01 ∨ received bus 0x950000000040 .r1 s 0 = 0) := by
  rw [check_accepts (by decide)]
  refine and_congr_right fun _ => ?_
  simp [respLen, byteOf]

end Compare

/-- CMD58, whose response is not checked. -/
theorem check_iff_unchecked :
    CheckMeets zeroCard 0xFD000000007A .r3 false 0 onesSpi ↔
      (Answers zeroCard 0xFD000000007A .r3 onesSpi.pos → respLen .r3 < 5) ∧
        ¬(false = true ∧ (∃ i < respLen .r3, byteOf (0 : U64).toNat i ≠ 0) ∧
          ZeroAnswer zeroCard 0xFD000000007A .r3 onesSpi.pos) :=
  check_iff fun _ => rfl

/-- CMD0 with the response 0x00 for 0x01, and CMD8. -/
theorem zero_response_accepted :
    ((returned (sdCmdCheck zeroCard 0x950000000040 .r1 true 0x01) onesSpi).1 = 0 ∧
      received zeroCard 0x950000000040 .r1 onesSpi 0 = 0 ∧
        ¬CheckMeets zeroCard 0x950000000040 .r1 true 0x01 onesSpi) ∧
      (returned (sdCmd zeroCard 0x87AA01000048 .r7 (.respBuf, 0) false) onesSpi).1 = 0 ∧
        ¬CheckMeets zeroCard 0x87AA01000048 .r7 true 0xAA01000001 onesSpi := by
  have hcode : (returned (sdCmdCheck zeroCard 0x950000000040 .r1 true 0x01) onesSpi).1 = 0 := by
    decide +kernel
  have hzero : received zeroCard 0x950000000040 .r1 onesSpi 0 = 0 := by decide +kernel
  have hcmd8 :
      (returned (sdCmd zeroCard 0x87AA01000048 .r7 (.respBuf, 0) false) onesSpi).1 = 0 := by
    decide +kernel
  refine ⟨⟨hcode, hzero, fun hmeets => ?_⟩, hcmd8,
    fun hmeets => absurd (hmeets.shift hcmd8) (by decide)⟩
  rcases (hmeets.accepts.1 hcode).2 with h | h
  · exact absurd h (by decide)
  · have hbyte := h 0 (by decide)
    rw [hzero] at hbyte
    exact absurd hbyte (by decide)

end Cheshire.SpiSdcard
