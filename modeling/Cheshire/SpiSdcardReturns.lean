import Cheshire.SpiSdcardInit

/-!
# The SD card driver returns

Every function of the driver but one takes a bounded number of transactions, whatever the card
sends (`Takes`). The exception is the loop around ACMD41.

**Theorem (`return_iff`).** Reads and writes always return. Setting up a card does not exactly if
no call fails and a card that is accepted answers every ACMD41 with a byte other than zero.
-/

namespace Cheshire.SpiSdcard

open Lib Cmd

/-! ## Numbers of transactions -/

section Takes

variable {bus : Bus} {α β : Type} {n m : ℕ} {x y : Sd α} {f : α → Sd β} {s s₁ s₂ : Spi}

/-- At most `n` transactions have been issued. -/
structure Within (n : ℕ) (s s' : Spi) : Prop where
  le : s.log.length ≤ s'.log.length
  bound : s'.log.length ≤ s.log.length + n

/-- None of the calls in between has failed. -/
def Clean (bus : Bus) (s s' : Spi) : Prop :=
  ∀ i, s.log.length ≤ i → i < s'.log.length → bus.fails i = none

/-- It issues at most `n` transactions, and none of them has failed if it returns 0. -/
def Takes (bus : Bus) (n : ℕ) (x : Sd α) : Prop :=
  ∀ s, Ends (x s) (fun _ s' => Within n s s' ∧ Clean bus s s')
    fun e s' => Within n s s' ∧ (e = 0 → Clean bus s s')

theorem Within.trans (h : Within n s s₁) (h' : Within m s₁ s₂) : Within (n + m) s s₂ where
  le := h.le.trans h'.le
  bound := by
    have := h.bound
    have := h'.bound
    omega

theorem Within.mono (h : Within n s s₁) (hnm : n ≤ m) : Within m s s₁ :=
  ⟨h.le, h.bound.trans (Nat.add_le_add_left hnm _)⟩

theorem Clean.trans (h : Clean bus s s₁) (h' : Clean bus s₁ s₂) : Clean bus s s₂ := by
  intro i hi hi'
  by_cases hlt : i < s₁.log.length
  · exact h i hi hlt
  · exact h' i (Nat.not_lt.1 hlt) hi'

theorem within_of_eq (h : s₁.log = s.log) : Within n s s₁ :=
  ⟨(congrArg List.length h).ge, (congrArg List.length h).le.trans (Nat.le_add_right _ _)⟩

theorem clean_of_eq (h : s₁.log = s.log) : Clean bus s s₁ := by
  intro i hi hi'
  rw [h] at hi'
  exact absurd hi' (Nat.not_lt.2 hi)

theorem Takes.bind (hx : Takes bus n x) (hf : ∀ a, Takes bus m (f a)) :
    Takes bus (n + m) (x >>= f) := by
  intro s
  refine (Ends.mono (hx s) (fun _ _ h => h) ?_).bind ?_
  · exact fun _ s' h => ⟨h.1.mono (Nat.le_add_right n m), h.2⟩
  intro a s₁ h
  obtain ⟨hwithin, hclean⟩ := h
  refine (hf a s₁).mono ?_ ?_
  · exact fun _ s₂ h' => ⟨hwithin.trans h'.1, hclean.trans h'.2⟩
  · exact fun _ s₂ h' => ⟨hwithin.trans h'.1, fun he => hclean.trans (h'.2 he)⟩

/-- Two parts within a given bound. -/
theorem Takes.seq {k : ℕ} (hk : n + m ≤ k) (hx : Takes bus n x) (hf : ∀ a, Takes bus m (f a)) :
    Takes bus k (x >>= f) := fun s =>
  (hx.bind hf s).mono (fun _ _ h => ⟨h.1.mono hk, h.2⟩) fun _ _ h => ⟨h.1.mono hk, h.2⟩

theorem Takes.mono (hx : Takes bus n x) (h : n ≤ m) : Takes bus m x := fun s =>
  (hx s).mono (fun _ _ h' => ⟨h'.1.mono h, h'.2⟩) fun _ _ h' => ⟨h'.1.mono h, h'.2⟩

theorem Takes.pure (a : α) : Takes bus n (Pure.pure a) := fun _ =>
  ⟨within_of_eq rfl, clean_of_eq rfl⟩

theorem Takes.throw (e : CInt) : Takes bus n (throw e : Sd α) := fun _ =>
  ⟨within_of_eq rfl, fun _ => clean_of_eq rfl⟩

theorem Takes.get : Takes bus 0 (get : Sd Spi) := fun _ => ⟨within_of_eq rfl, clean_of_eq rfl⟩

theorem Takes.modify {g : Spi → Spi} (hg : ∀ s, (g s).log = s.log) :
    Takes bus 0 (modify g : Sd Unit) := fun s => ⟨within_of_eq (hg s), clean_of_eq (hg s)⟩

theorem Takes.ite {c : Prop} [Decidable c] (hx : c → Takes bus n x) (hy : ¬c → Takes bus n y) :
    Takes bus n (if c then x else y) :=
  iteInduction (motive := fun x => Takes bus n x) hx hy

theorem Takes.forStep {body : ℕ → Sd Unit} (hbody : ∀ i, Takes bus n (body i))
    (stop step fuel i : ℕ) : Takes bus (fuel * n) (Cmd.forStep stop step body fuel i) := by
  induction fuel generalizing i with
  | zero => exact .pure ()
  | succ fuel ih =>
    refine .ite (fun _ => ?_) fun _ => .pure ()
    rw [Nat.succ_mul, Nat.add_comm]
    exact (hbody i).bind fun _ => ih (i + step)

/-- One transaction. -/
theorem transaction_takes (t : Txn) : Takes bus 1 (transaction bus t) := by
  intro s
  have hone {s' : Spi} (h : s'.log = s.log ++ [t]) : Within 1 s s' := by
    refine ⟨?_, ?_⟩ <;> rw [h, List.length_append]
    · exact Nat.le_add_right _ _
    · rfl
  unfold transaction
  cases hf : bus.fails s.log.length with
  | none =>
    have hclean {s' : Spi} (h : s'.log = s.log ++ [t]) : Clean bus s s' := by
      intro i hi hi'
      rw [h, List.length_append] at hi'
      obtain rfl : i = s.log.length := Nat.le_antisymm (Nat.le_of_lt_succ hi') hi
      exact hf
    cases t.seg <;> exact ⟨hone rfl, hclean rfl⟩
  | some f => cases t.seg <;> exact ⟨hone rfl, fun he => absurd he f.nonzero⟩

end Takes

/-! ## The functions of the driver -/

section Driver

variable {bus : Bus} {cmd : U64} {resp : Resp} {rdata dst : Ptr} {csaat : Bool}

theorem xferCsaat_takes (rx tx : Option Ptr) (len : ℕ) : Takes bus 1 (xferCsaat bus rx tx len) := by
  cases tx with
  | none => cases rx <;> exact transaction_takes _
  | some tx =>
    cases rx with
    | none => exact Takes.bind .get fun s => transaction_takes _
    | some rx => exact .throw _

theorem csfree_takes : Takes bus 1 (csfree bus) := transaction_takes _

theorem poll_takes (timeout : ℕ) (again : Byte → Bool) (code : CInt) :
    Takes bus timeout (poll bus timeout dst again code) := by
  have hloop (timeout : ℕ) : Takes bus timeout (pollLoop bus dst again timeout) := by
    induction timeout with
    | zero => exact .pure 0
    | succ timeout ih =>
      refine .seq (n := 1) (m := timeout) (by omega) (xferCsaat_takes _ _ _) fun _ => ?_
      refine .seq (n := 0) (m := timeout) (by omega) .get fun s => ?_
      exact .ite (fun _ => ih) fun _ => .pure _
  refine .seq (n := timeout) (m := 0) le_rfl (hloop timeout) fun t => ?_
  exact .ite (fun _ => .throw code) fun _ => .pure ()

/-- What a command takes at most: sending it, a stuff byte, the two polls, and releasing the
card. -/
def cmdBound : ℕ := 1 + (1 + (8 + (r1bTimeout + 1)))

theorem sdCmd_takes : Takes bus cmdBound (sdCmd bus cmd resp rdata csaat) := by
  have hsend : Takes bus 1 (sendCmd bus cmd) :=
    .seq (n := 0) (m := 1) le_rfl (.modify fun _ => rfl) fun _ => xferCsaat_takes _ _ _
  have hrest : Takes bus r1bTimeout (restOfResponse bus resp rdata) := by
    refine .ite (fun _ => poll_takes _ _ _) fun _ => ?_
    exact .ite (fun _ => (xferCsaat_takes _ _ _).mono (by decide)) fun _ => .pure ()
  have hthen : Takes bus (8 + (r1bTimeout + 1)) (poll bus 8 rdata noResponse 0x12 >>= fun _ =>
      restOfResponse bus resp rdata >>= fun _ => if !csaat then csfree bus else pure ()) := by
    refine (poll_takes _ _ _).bind fun _ => hrest.bind fun _ => ?_
    exact .ite (fun _ => csfree_takes) fun _ => .pure ()
  have hawait : Takes bus (1 + (8 + (r1bTimeout + 1)))
      (awaitResponse bus cmd resp rdata csaat) := by
    refine .ite (fun _ => (xferCsaat_takes _ _ _).bind fun _ => hthen) fun _ => ?_
    exact hthen.mono (Nat.le_add_left _ _)
  refine .ite (fun _ => hsend.bind fun _ => hawait) fun _ => ?_
  exact hawait.mono (Nat.le_add_left _ _)

theorem sdCmdCheck_takes {checkExp : Bool} {exp : U64} :
    Takes bus cmdBound (sdCmdCheck bus cmd resp checkExp exp) := by
  refine .seq (n := cmdBound) (m := 0) le_rfl sdCmd_takes fun _ => ?_
  refine .seq (n := 0) (m := 0) le_rfl .get fun s => ?_
  exact .ite (fun _ => .throw _) fun _ => .pure ()

/-- The chunks of a block are never more than its bytes. -/
theorem forChunks_takes {body : ℕ → ℕ → Sd Unit} (hbody : ∀ i n, Takes bus 1 (body i n)) :
    Takes bus 512 (forChunks bus body) :=
  Takes.forStep (fun _ => hbody _ _) _ _ _ _

/-- A token, the chunks and the checksum. -/
def blockReadBound : ℕ := dataTimeout + (512 + 1)

theorem readBlock_takes (buf : U64) (al : Align) (check : Bool) (b : ℕ) :
    Takes bus blockReadBound (readBlock bus buf al check b) := by
  have htoken : Takes bus dataTimeout (awaitToken bus) := by
    refine .seq (n := dataTimeout) (m := 0) le_rfl (poll_takes _ _ _) fun _ => ?_
    refine .seq (n := 0) (m := 0) le_rfl .get fun s => ?_
    exact .ite (fun _ => .throw _) fun _ => .pure ()
  have hblock (p : Ptr) : Takes bus (512 + 1) (receiveBlock bus p check) := by
    refine .seq (n := 512) (m := 1) le_rfl (forChunks_takes fun _ _ => xferCsaat_takes _ _ _)
      fun _ => ?_
    refine .seq (n := 1) (m := 0) le_rfl (xferCsaat_takes _ _ _) fun _ => ?_
    refine .seq (n := 0) (m := 0) le_rfl .get fun s => ?_
    exact .ite (fun _ => .throw _) fun _ => .pure ()
  refine .seq (n := dataTimeout) (m := 512 + 1) le_rfl htoken fun _ => ?_
  refine .seq (n := 512 + 1) (m := 0) le_rfl (hblock _) fun _ => ?_
  exact .modify fun s => (copyBlock_rest _ _ _ s).1

/-- The commands at both ends, and the blocks. -/
def readBound (n : ℕ) : ℕ := cmdBound + (n * blockReadBound + cmdBound)

theorem readBlocks_takes (buf block : U64) (al : Align) (check : Bool) :
    Takes bus (readBound al.len.toNat) (readBlocks bus buf block al check) := by
  refine .ite (fun _ => .pure ()) fun _ => ?_
  refine sdCmd_takes.bind fun _ => ?_
  refine (Takes.forStep (fun b => readBlock_takes _ al check b) _ _ _ _).bind fun _ => ?_
  exact .ite (fun _ => sdCmdCheck_takes) fun _ => csfree_takes.mono (by decide)

theorem sdRead_takes (buf addr len : U64) (check : Bool) :
    Takes bus (readBound (alignOf addr len).len.toNat) (sdRead bus buf addr len check) :=
  .ite (fun _ => .pure ()) fun _ => readBlocks_takes _ _ _ _

/-- A token, the chunks, the checksum, the data response, and the end of being busy. -/
def blockWriteBound : ℕ := 1 + (512 + 1) + (1 + cmdBound)

theorem writeBlock_takes (buf : U64) (tok : Byte) (computeCrc : Bool) (b : ℕ) :
    Takes bus blockWriteBound (writeBlock bus buf tok computeCrc b) := by
  have hsend (p : Ptr) : Takes bus (1 + (512 + 1)) (sendBlock bus p tok computeCrc) := by
    refine .seq (n := 0) (m := 514) le_rfl (.modify fun _ => rfl) fun _ => ?_
    refine .seq (n := 1) (m := 513) le_rfl (xferCsaat_takes _ _ _) fun _ => ?_
    refine .seq (n := 512) (m := 1) le_rfl (forChunks_takes fun _ _ => xferCsaat_takes _ _ _)
      fun _ => ?_
    exact .seq (n := 0) (m := 1) le_rfl (.modify fun _ => rfl) fun _ => xferCsaat_takes _ _ _
  have haccept : Takes bus 1 (awaitAccepted bus) := by
    refine .seq (n := 1) (m := 0) le_rfl (xferCsaat_takes _ _ _) fun _ => ?_
    refine .seq (n := 0) (m := 0) le_rfl .get fun s => ?_
    exact .ite (fun _ => .throw _) fun _ => .pure ()
  exact (hsend _).bind fun _ => haccept.bind fun _ => sdCmd_takes

/-- The commands at both ends, a dummy byte, and the blocks. -/
def writeBound (n : ℕ) : ℕ := cmdBound + (1 + (n * blockWriteBound + cmdBound))

theorem writeBlocks_takes (buf block len : U64) (computeCrc : Bool) :
    Takes bus (writeBound len.toNat) (writeBlocks bus buf block len computeCrc) := by
  refine .ite (fun _ => .pure ()) fun _ => ?_
  refine sdCmd_takes.bind fun _ => (xferCsaat_takes _ _ _).bind fun _ => ?_
  refine (Takes.forStep (fun b => writeBlock_takes buf _ computeCrc b) _ _ _ _).bind fun _ => ?_
  exact .ite (fun _ => sdCmd_takes) fun _ => csfree_takes.mono (by decide)

end Driver

/-! ## The loop around ACMD41 -/

section Loop

variable {bus : Bus} {α β : Type} {cmd : U64} {rdata : Ptr} {s : Spi}

/-- It does not run out of fuel. -/
def Halts (r : EStateM.Result Exit Spi α) : Prop := ∀ s', r ≠ .error .running s'

theorem Halts.of_ends {r : EStateM.Result Exit Spi α} {Q : α → Spi → Prop} {E : Exit → Spi → Prop}
    (h : Ends r Q E) (hE : ∀ e s', E e s' → e ≠ .running) : Halts r := by
  rintro s' rfl
  exact hE _ _ h rfl

theorem Halts.bind {x : Init α} {f : α → Init β} (hx : Halts (x s))
    (hf : ∀ a s', x s = .ok a s' → Halts (f a s')) : Halts ((x >>= f) s) := by
  cases hr : x s with
  | ok a s' =>
    rw [bind_ok hr]
    exact hf a s' hr
  | error e s' =>
    rw [bind_error hr]
    rintro s'' h
    cases h
    exact hx s' hr

theorem require_halts (e : CInt) (p : Prop) [Decidable p] (s : Spi) :
    Halts (require (.code e) p s) := by
  unfold require
  split_ifs
  · rintro s' ⟨⟩
  · rintro s' ⟨⟩

theorem checkCall_halts (x : Sd Unit) (s : Spi) : Halts (checkCall x s) := by
  unfold checkCall
  split_ifs
  · rintro s' ⟨⟩
  · rintro s' ⟨⟩

/-- A call that is checked, if no exception of it has code 0. -/
theorem checkCall_ends {x : Sd Unit} {Q : Spi → Prop} {E : CInt → Spi → Prop}
    (h : Ends (x s) (fun _ => Q) E) (hE : ∀ e s', E e s' → e ≠ 0) :
    Ends (checkCall x s) (fun _ => Q) fun e s' => ∃ c, e = .code c ∧ E c s' := by
  unfold checkCall returned
  cases hr : x s with
  | ok a s' =>
    rw [hr] at h
    exact h
  | error e s' =>
    rw [hr] at h
    rw [if_neg (hE e s' h)]
    exact ⟨e, rfl, h⟩

variable (bus) in
/-- The response to a command of one byte. -/
abbrev r1Scan : Scan := Scan.polled bus.wire noResponse 8

theorem responseScan_r1 (hcmd : cmd &&& 0xFF ≠ 0x4C) : responseScan bus cmd .r1 = r1Scan bus := by
  unfold responseScan
  rw [Scan.when_neg hcmd, Scan.skip_zero_seq]
  exact Scan.seq_skip_zero

/-- A command whose response is one byte. -/
theorem sdCmd_r1 (hcmd : cmd ≠ 0) (hlow : cmd &&& 0xFF ≠ 0x4C) (hext : rdata.1 ≠ .ext)
    (hrdummy : rdata.1 ≠ .rdummy) (s : Spi) : Ends (sdCmd bus cmd .r1 rdata false s)
      (fun _ s' => r1Scan bus s.pos s'.pos ∧ s'.load rdata 0 = bus.wire (s'.pos - 1) ∧
        s.log.length < s'.log.length ∧ Clean bus s s')
      (fun e _ => e ≠ 0 ∧ (NoFail bus → ∀ q, ¬r1Scan bus s.pos q)) := by
  have hloads := @sdCmd_loads bus rdata cmd .r1 hext hrdummy s
  have htakes := @sdCmd_takes bus cmd .r1 rdata false s
  have htrans := @sdCmd_transfer bus cmd .r1 rdata (s.mem .ext) s hcmd hext false rfl
  unfold Transfer at htrans
  cases hr : sdCmd bus cmd .r1 rdata false s with
  | ok _ s' =>
    rw [hr] at hloads htakes htrans
    obtain ⟨p, hfirst, hrest, hbytes⟩ := hloads
    obtain ⟨s₁, hsent, hdone, -⟩ := htrans
    have hpos : s'.pos = p + 1 := hrest
    refine ⟨?_, ?_, ?_, htakes.2⟩
    · rw [firstScan, Scan.when_neg hlow, Scan.skip_zero_seq] at hfirst
      rw [hpos]
      exact hfirst
    · rw [hpos, Nat.add_sub_cancel]
      exact hbytes 0 Nat.one_pos
    · obtain ⟨l, hl, -⟩ := hdone.grows
      rw [hl, hsent.log, List.append_assoc, List.length_append, List.length_append]
      exact Nat.lt_add_of_pos_right (Nat.lt_add_right _ Nat.one_pos)
  | error e s' =>
    obtain ⟨hcode, hscan⟩ := sdCmd_failed hext hr
    refine ⟨hcode, fun hn q hq => ?_⟩
    rw [← responseScan_r1 hlow] at hq
    exact hscan hn q hq

variable (bus) in
/-- The responses to CMD55 and ACMD41. -/
def acmd41Scan : Scan := (r1Scan bus).seq (r1Scan bus)

variable (bus) in
/-- A round of the loop after which there is another one. -/
def roundScan : Scan := fun p q => acmd41Scan bus p q ∧ bus.wire (q - 1) ≠ 0

theorem acmd41Scan_functional : (acmd41Scan bus).Functional :=
  (Scan.polled_functional _ _ _).seq (Scan.polled_functional _ _ _)

theorem acmd41_ends (s : Spi) : Ends (acmd41 bus s)
    (fun ret s' => acmd41Scan bus s.pos s'.pos ∧ ret = bus.wire (s'.pos - 1) ∧
      s.log.length < s'.log.length ∧ Clean bus s s')
    (fun e _ => e ≠ .running ∧ (NoFail bus → ∀ q, ¬acmd41Scan bus s.pos q)) := by
  have hcmd55 := sdCmdCheck_unchecked 0x650000000077 .r1 s
    (@sdCmd_r1 bus 0x650000000077 (.respBuf, 0) (by decide) (by decide) (by decide) (by decide) s)
  refine Ends.bind (Ends.mono (checkCall_ends hcmd55 fun _ _ h => h.1) (fun _ _ h => h) ?_) ?_
  · rintro _ s' ⟨c, rfl, -, hnone⟩
    exact ⟨Exit.noConfusion, fun hn q ⟨k, hk, _⟩ => hnone hn k hk⟩
  intro _ s₁ h
  obtain ⟨hscan, -, hlog, hclean⟩ := h
  have hacmd41 := @sdCmd_r1 bus 0x770000004069 (.ret, 0) (by decide) (by decide) (by decide)
    (by decide) s₁
  refine Ends.bind (Ends.mono (checkCall_ends hacmd41 fun _ _ h => h.1) (fun _ _ h => h) ?_) ?_
  · rintro _ s' ⟨c, rfl, -, hnone⟩
    refine ⟨Exit.noConfusion, fun hn q ⟨k, hk, hq⟩ => hnone hn q ?_⟩
    rw [Scan.polled_functional _ _ _ _ _ _ hscan hk]
    exact hq
  · intro _ s₂ h
    obtain ⟨hscan', hload, hlog', hclean'⟩ := h
    exact ⟨⟨s₁.pos, hscan, hscan'⟩, hload, hlog.trans hlog', hclean.trans hclean'⟩

/-- What the loop does after a round. -/
theorem acmd41Loop_succ {ret : Byte} {s₁ : Spi} (h : acmd41 bus s = .ok ret s₁) (fuel : ℕ) :
    acmd41Loop bus (fuel + 1) s =
      (if ret ≠ 0 then acmd41Loop bus fuel else pure () : Init Unit) s₁ := bind_ok h

/-- Rounds go on in the stream, and the card is busy in the last one. -/
theorem rounds_busy {n p q : ℕ} (h : (roundScan bus).times (n + 1) p q) :
    p + n < q ∧ bus.wire (q - 1) ≠ 0 := by
  induction n generalizing p with
  | zero =>
    obtain ⟨_, ⟨⟨m, hcmd55, hacmd41⟩, hbusy⟩, rfl⟩ := h
    obtain ⟨k, -, -, -, rfl⟩ := hcmd55
    obtain ⟨k', -, -, -, rfl⟩ := hacmd41
    exact ⟨by omega, hbusy⟩
  | succ n ih =>
    obtain ⟨r, ⟨⟨m, hcmd55, hacmd41⟩, -⟩, hrest⟩ := h
    obtain ⟨k, -, -, -, rfl⟩ := hcmd55
    obtain ⟨k', -, -, -, rfl⟩ := hacmd41
    obtain ⟨hle, hbusy⟩ := ih hrest
    exact ⟨by omega, hbusy⟩

/-- As long as every round is followed by another one, the loop goes on. -/
theorem acmd41Loop_runs (hn : NoFail bus) (fuel : ℕ) (s : Spi)
    (h : ∀ n, ∃ q, (roundScan bus).times n s.pos q) :
    ∃ s', acmd41Loop bus fuel s = .error .running s' := by
  induction fuel generalizing s with
  | zero => exact ⟨s, rfl⟩
  | succ fuel ih =>
    obtain ⟨-, q, hq, -⟩ := h 1
    have hround := @acmd41_ends bus s
    cases hr : acmd41 bus s with
    | error e s' =>
      rw [hr] at hround
      exact absurd hq.1 (hround.2 hn q)
    | ok ret s₁ =>
      rw [hr] at hround
      obtain ⟨hscan, hret, -⟩ := hround
      have hpos : s₁.pos = q := acmd41Scan_functional _ _ _ hscan hq.1
      have hne : ret ≠ 0 := by
        rw [hret, hpos]
        exact hq.2
      rw [acmd41Loop_succ hr, if_pos hne]
      refine ih s₁ fun n => ?_
      obtain ⟨q', k, hk, hq'⟩ := h (n + 1)
      rw [hpos, acmd41Scan_functional _ _ _ hq.1 hk.1]
      exact ⟨q', hq'⟩

/-- The loop ends if it does after the first round. -/
theorem acmd41Loop_halts_step (h : ∀ ret s₁, acmd41 bus s = .ok ret s₁ → ret ≠ 0 →
    ∃ fuel, Halts (acmd41Loop bus fuel s₁)) : ∃ fuel, Halts (acmd41Loop bus fuel s) := by
  have hround := @acmd41_ends bus s
  cases hr : acmd41 bus s with
  | error e s' =>
    rw [hr] at hround
    refine ⟨1, ?_⟩
    rw [acmd41Loop, bind_error hr]
    rintro s'' h'
    cases h'
    exact hround.1 rfl
  | ok ret s₁ =>
    by_cases hne : ret ≠ 0
    · obtain ⟨fuel, hfuel⟩ := h ret s₁ hr hne
      refine ⟨fuel + 1, ?_⟩
      rw [acmd41Loop_succ hr, if_pos hne]
      exact hfuel
    · refine ⟨1, ?_⟩
      rw [acmd41Loop_succ hr, if_neg hne]
      rintro s' h'
      cases h'

/-- The loop ends if a round is the last one. -/
theorem acmd41Loop_halts (n : ℕ) (s : Spi) (h : ∀ q, ¬(roundScan bus).times n s.pos q) :
    ∃ fuel, Halts (acmd41Loop bus fuel s) := by
  induction n generalizing s with
  | zero => exact absurd rfl (h s.pos)
  | succ n ih =>
    refine acmd41Loop_halts_step fun ret s₁ hr hne => ?_
    have hround := @acmd41_ends bus s
    rw [hr] at hround
    obtain ⟨hscan, hret, -⟩ := hround
    exact ih s₁ fun q hq => h q ⟨s₁.pos, ⟨hscan, hret ▸ hne⟩, hq⟩

/-- The loop ends if a call fails sooner or later. -/
theorem acmd41Loop_halts_of_fails {i : ℕ} (hi : bus.fails i ≠ none) (n : ℕ) (s : Spi)
    (hle : s.log.length ≤ i) (hlen : i < s.log.length + n) :
    ∃ fuel, Halts (acmd41Loop bus fuel s) := by
  induction n generalizing s with
  | zero => exact absurd hle (Nat.not_le.2 hlen)
  | succ n ih =>
    refine acmd41Loop_halts_step fun ret s₁ hr _ => ?_
    have hround := @acmd41_ends bus s
    rw [hr] at hround
    obtain ⟨-, -, hlong, hclean⟩ := hround
    -- the call has not been made yet
    have hle' : s₁.log.length ≤ i := Nat.not_lt.1 fun hlt => hi (hclean i hle hlt)
    exact ih s₁ hle' (by omega)

end Loop

/-! ## Setting up -/

section SetUp

variable {bus : Bus} {host : Host} {handle : Option Handle} {coreFreq : U64} {s : Spi}

/-- The handle is accepted, and the calls that set up the host succeed. -/
structure Ready (host : Host) (h : Handle) (coreFreq : U64) : Prop where
  cs : h.csid.toInt < host.numCs
  dummy : h.csidDummy.toInt < host.numCs
  nonzero : h.spiFreq ≠ 0
  limit : h.spiFreq ≤ 25 * 1000 * 1000
  core : h.spiFreq ≤ coreFreq
  init : host.result 0 .init = 0
  configure : host.result 1 (.configureCs initClock h.csid) = 0
  configureDummy : host.result 2 (.configureCs initClock h.csidDummy) = 0
  enable : host.result 3 (.outputSetEnabled true) = 0

theorem require_bind_ends {α : Type} {e : Exit} {p : Prop} [Decidable p] {f : Unit → Init α}
    {Q : α → Spi → Prop} {E : Exit → Spi → Prop} (hp : p → Ends (f () s) Q E) (hn : ¬p → E e s) :
    Ends ((require e p >>= f) s) Q E := by
  unfold require
  by_cases h : p
  · rw [if_pos h]
    exact hp h
  · rw [if_neg h]
    exact hn h

theorem setUp_ends (s : Spi) : Ends (setUp host handle coreFreq s)
    (fun h s' => s' = s ∧ handle = some h ∧ Ready host h coreFreq)
    (fun e _ => e ≠ .running ∧ ¬∃ h, handle = some h ∧ Ready host h coreFreq) := by
  cases handle with
  | none => exact ⟨Exit.noConfusion, fun ⟨h, he, _⟩ => Option.some_ne_none h he.symm⟩
  | some h =>
    have hfail {c : CInt} {p : Prop} (hp : Ready host h coreFreq → p) (hn : ¬p) :
        Exit.code c ≠ .running ∧ ¬∃ h', some h = some h' ∧ Ready host h' coreFreq := by
      refine ⟨Exit.noConfusion, ?_⟩
      rintro ⟨_, ⟨rfl⟩, hready⟩
      exact hn (hp hready)
    refine require_bind_ends (fun h₁ => ?_) (hfail Ready.cs)
    refine require_bind_ends (fun h₂ => ?_) (hfail Ready.dummy)
    refine require_bind_ends (fun h₃ => ?_) (hfail Ready.nonzero)
    refine require_bind_ends (fun h₄ => ?_) (hfail Ready.limit)
    refine require_bind_ends (fun h₅ => ?_) (hfail Ready.core)
    refine require_bind_ends (fun h₆ => ?_) (hfail Ready.init)
    refine require_bind_ends (fun h₇ => ?_) (hfail Ready.configure)
    refine require_bind_ends (fun h₈ => ?_) (hfail Ready.configureDummy)
    refine require_bind_ends (fun h₉ => ?_) (hfail Ready.enable)
    exact ⟨rfl, rfl, h₁, h₂, h₃, h₄, h₅, h₆, h₇, h₈, h₉⟩

/-- A call that returns 0 has not met a failure. -/
theorem checkCall_clean {n : ℕ} {x : Sd Unit} (hx : Takes bus n x) (s : Spi) :
    Ends (checkCall x s) (fun _ s' => s.log.length ≤ s'.log.length ∧ Clean bus s s')
      fun e _ => e ≠ .running := by
  have hends := hx s
  unfold checkCall returned
  cases hr : x s with
  | ok _ s' =>
    rw [hr] at hends
    exact ⟨hends.1.le, hends.2⟩
  | error e s' =>
    rw [hr] at hends
    by_cases he : e = 0
    · rw [if_pos he]
      exact ⟨hends.1.le, hends.2 he⟩
    · rw [if_neg he]
      exact Exit.noConfusion

theorem wakeUp_ends (s : Spi) : Ends (wakeUp bus s)
    (fun _ s' => s.log.length ≤ s'.log.length ∧ Clean bus s s') fun e _ => e ≠ .running := by
  refine Ends.bind (checkCall_clean (xferCsaat_takes _ _ _) s) fun _ s₁ h₁ => ?_
  refine Ends.bind (checkCall_clean sdCmdCheck_takes s₁) fun _ s₂ h₂ => ?_
  refine Ends.bind (checkCall_clean sdCmdCheck_takes s₂) fun _ s₃ h₃ => ?_
  exact ⟨h₁.1.trans (h₂.1.trans h₃.1), h₁.2.trans (h₂.2.trans h₃.2)⟩

/-- Once the loop has ended, the rest does. -/
theorem spiSdcardInit_halts {fuel : ℕ}
    (h : ∀ h' s₂, handle = some h' → Ready host h' coreFreq → wakeUp bus s = .ok () s₂ →
      Halts (acmd41Loop bus fuel s₂)) : Halts (spiSdcardInit bus host fuel handle coreFreq s) := by
  have hsetUp := @setUp_ends host handle coreFreq s
  refine Halts.bind (Halts.of_ends hsetUp fun _ _ h => h.1) fun h' s₁ hs₁ => ?_
  rw [hs₁] at hsetUp
  obtain ⟨rfl, hh, hready⟩ := hsetUp
  have hactivate : Halts (activate bus fuel s₁) := by
    refine Halts.bind (Halts.of_ends (wakeUp_ends s₁) fun _ _ h => h) fun _ s₂ hs₂ => ?_
    refine Halts.bind (h h' s₂ hh hready hs₂) fun _ s₃ _ => ?_
    exact Halts.bind (checkCall_halts _ _) fun _ _ _ => checkCall_halts _ _
  refine Halts.bind hactivate fun _ s₃ _ => ?_
  refine Halts.bind (require_halts _ _ _) fun _ _ _ => ?_
  refine Halts.bind (require_halts _ _ _) fun _ _ _ => ?_
  exact Halts.bind (require_halts _ _ _) fun _ _ _ => require_halts _ _ _

end SetUp

/-! ## Main result -/

section Main

variable {bus : Bus} {s : Spi}

/-- What it means that every function returns after finitely many transactions. -/
structure AllReturn (bus : Bus) (host : Host) (handle : Option Handle) (coreFreq : U64)
    (buf addr block len : U64) (computeCrc : Bool) (s : Spi) : Prop where
  init : ∃ fuel, Halts (spiSdcardInit bus host fuel handle coreFreq s)
  readCheckcrc : (spiSdcardReadCheckcrc bus buf addr len s).2.log.length ≤
    s.log.length + readBound (alignOf addr len).len.toNat
  readIgnorecrc : (spiSdcardReadIgnorecrc bus buf addr len s).2.log.length ≤
    s.log.length + readBound (alignOf addr len).len.toNat
  write : (spiSdcardWriteBlocks bus buf block len computeCrc s).2.log.length ≤
    s.log.length + writeBound len.toNat
  chunks : ∀ (body : ℕ → Sd Unit) (fuel : ℕ), 512 ≤ fuel →
    Cmd.forStep 512 (4 * bus.rxDepth) body fuel 0 = Cmd.forStep 512 (4 * bus.rxDepth) body 512 0

/-- No call fails, and every ACMD41 is answered with a byte other than zero. -/
structure NeverReady (bus : Bus) (s : Spi) : Prop where
  calls : NoFail bus
  rounds : ∀ n, ∃ q, (roundScan bus).times n s.pos q

theorem returned_bound {n : ℕ} {x : Sd Unit} (hx : Takes bus n x) (s : Spi) :
    (returned x s).2.log.length ≤ s.log.length + n := by
  have hends := hx s
  unfold returned
  cases hr : x s <;>
  · rw [hr] at hends
    exact hends.1.bound

/-- If the card is never ready, setting it up does not end. -/
theorem spiSdcardInit_runs {host : Host} {handle : Option Handle} {h : Handle} {coreFreq : U64}
    {s₂ : Spi} (hh : handle = some h) (hready : Ready host h coreFreq)
    (hwake : wakeUp bus s = .ok () s₂) (hnever : NeverReady bus s₂) (fuel : ℕ) :
    ∃ s', spiSdcardInit bus host fuel handle coreFreq s = .error .running s' := by
  obtain ⟨s', hs'⟩ := acmd41Loop_runs hnever.calls fuel s₂ hnever.rounds
  have hactivate : activate bus fuel s = .error .running s' :=
    (bind_ok hwake).trans (bind_error hs')
  have hsetUp := @setUp_ends host handle coreFreq s
  refine ⟨s', ?_⟩
  cases hr : setUp host handle coreFreq s with
  | error e s₁ =>
    rw [hr] at hsetUp
    exact absurd ⟨h, hh, hready⟩ hsetUp.2
  | ok h' s₁ =>
    rw [hr] at hsetUp
    obtain ⟨rfl, -⟩ := hsetUp
    exact (bind_ok hr).trans (bind_error hactivate)

/-- If a call fails or a round is the last one, the loop ends. -/
theorem acmd41Loop_halts_of_not (hs : s.log = []) {s₂ : Spi} (hwake : wakeUp bus s = .ok () s₂)
    (hnot : ¬NeverReady bus s₂) : ∃ fuel, Halts (acmd41Loop bus fuel s₂) := by
  have hclean := @wakeUp_ends bus s
  rw [hwake] at hclean
  by_cases hn : NoFail bus
  · have hround : ¬∀ n, ∃ q, (roundScan bus).times n s₂.pos q := fun h => hnot ⟨hn, h⟩
    push Not at hround
    obtain ⟨n, hlast⟩ := hround
    exact acmd41Loop_halts n s₂ hlast
  · unfold NoFail at hn
    push Not at hn
    obtain ⟨i, hi⟩ := hn
    have hle : s₂.log.length ≤ i := by
      refine Nat.not_lt.1 fun hlt => hi (hclean.2 i ?_ hlt)
      rw [hs]
      exact Nat.zero_le i
    exact acmd41Loop_halts_of_fails hi (i + 1) s₂ hle (by omega)

/-- **Main result.** All functions return after finitely many transactions, except that setting up
a card that is accepted and never ready does not. -/
theorem return_iff (hdepth : 1 ≤ bus.rxDepth) (hs : s.log = []) (host : Host)
    (handle : Option Handle) (coreFreq buf addr block len : U64) (computeCrc : Bool) :
    AllReturn bus host handle coreFreq buf addr block len computeCrc s ↔
      ¬∃ h s₂, handle = some h ∧ Ready host h coreFreq ∧ wakeUp bus s = .ok () s₂ ∧
        NeverReady bus s₂ := by
  constructor
  · rintro hall ⟨h, s₂, hh, hready, hwake, hnever⟩
    obtain ⟨fuel, hfuel⟩ := hall.init
    obtain ⟨s', hs'⟩ := spiSdcardInit_runs hh hready hwake hnever fuel
    exact hfuel s' hs'
  · intro hnot
    refine ⟨?_, returned_bound (sdRead_takes _ _ _ _) s, returned_bound (sdRead_takes _ _ _ _) s,
      returned_bound (writeBlocks_takes _ _ _ _) s, fun body fuel hfuel => ?_⟩
    · by_cases hreach : ∃ h s₂, handle = some h ∧ Ready host h coreFreq ∧ wakeUp bus s = .ok () s₂
      · obtain ⟨h, s₂, hh, hready, hwake⟩ := hreach
        obtain ⟨fuel, hfuel⟩ := acmd41Loop_halts_of_not hs hwake fun hnever =>
          hnot ⟨h, s₂, hh, hready, hwake, hnever⟩
        refine ⟨fuel, spiSdcardInit_halts fun h' s₂' _ _ hwake' => ?_⟩
        rw [hwake] at hwake'
        cases hwake'
        exact hfuel
      · exact ⟨0, spiSdcardInit_halts fun h' s₂ hh hready hwake =>
          absurd ⟨h', s₂, hh, hready, hwake⟩ hreach⟩
    · exact Cmd.forStep_fuel (by omega) body hfuel (le_refl 512)

end Main

/-- A host on which every call succeeds. -/
def freeHost : Host where
  numCs := 3
  result _ _ := 0

def sampleHandle : Handle := ⟨24000000, 0, 2⟩

/-- A card that answers everything with ones; a shift by 40 is taken for one by 8. -/
def onesCard : Bus where
  wire _ := 0x01
  fails _ := none
  rxDepth := 64
  overshift := 0x100

/-- The end of the commands before the loop, where they are seen to succeed. -/
theorem wakes_at {bus : Bus} {p : ℕ} (h : (match wakeUp bus onesSpi with
    | .ok _ s₂ => decide (s₂.pos = p)
    | .error _ _ => false) = true) : ∃ s₂, wakeUp bus onesSpi = .ok () s₂ ∧ s₂.pos = p := by
  cases hwake : wakeUp bus onesSpi with
  | ok _ s₂ =>
    rw [hwake] at h
    exact ⟨s₂, rfl, of_decide_eq_true h⟩
  | error e s₂ =>
    rw [hwake] at h
    exact absurd h Bool.false_ne_true

/-- Two bytes with which a card says that it is busy. -/
theorem round_of_ones {bus : Bus} {p : ℕ} (h₀ : bus.wire p = 0x01) (h₁ : bus.wire (p + 1) = 0x01) :
    roundScan bus p (p + 2) := by
  have hone {p : ℕ} (h : bus.wire p = 0x01) : r1Scan bus p (p + 1) := by
    refine ⟨0, by decide, fun j hj => absurd hj (Nat.not_lt_zero j), ?_, rfl⟩
    rw [Nat.add_zero, h]
    decide
  refine ⟨⟨p + 1, hone h₀, hone h₁⟩, ?_⟩
  rw [show p + 2 - 1 = p + 1 from rfl, h₁]
  decide

/-- A card that is busy in seven rounds of the loop, and ready then. -/
def lateCard : Bus := { onesCard with wire := fun n => if n < 20 then 0x01 else 0x00 }

theorem lateCard_rounds : ∃ s₂, wakeUp lateCard onesSpi = .ok () s₂ ∧
    ∃ q, (roundScan lateCard).times 7 s₂.pos q := by
  obtain ⟨s₂, hwake, hpos⟩ := @wakes_at lateCard 6 (by decide +kernel)
  refine ⟨s₂, hwake, 20, ?_⟩
  rw [hpos]
  have hround (p : ℕ) (hp : p + 2 ≤ 20) : roundScan lateCard p (p + 2) :=
    round_of_ones (if_pos (by omega)) (if_pos (by omega))
  exact ⟨8, hround 6 (by decide), 10, hround 8 (by decide), 12, hround 10 (by decide), 14,
    hround 12 (by decide), 16, hround 14 (by decide), 18, hround 16 (by decide), 20,
    hround 18 (by decide), rfl⟩

theorem return_iff_late :
    (∃ s₂, wakeUp lateCard onesSpi = .ok () s₂ ∧ ∃ q, (roundScan lateCard).times 7 s₂.pos q) ∧
      AllReturn lateCard freeHost (some sampleHandle) 50000000 0 0 0 1 true onesSpi := by
  refine ⟨lateCard_rounds,
    (return_iff (by decide) rfl freeHost (some sampleHandle) 50000000 0 0 0 1 true).2 ?_⟩
  rintro ⟨-, s₂, -, -, -, hnever⟩
  obtain ⟨q, hq⟩ := hnever.rounds 21
  obtain ⟨hle, hbusy⟩ := rounds_busy hq
  exact hbusy (if_neg (by omega))

theorem onesCard_rounds (n p : ℕ) : ∃ q, (roundScan onesCard).times n p q := by
  induction n generalizing p with
  | zero => exact ⟨p, rfl⟩
  | succ n ih =>
    obtain ⟨q, hq⟩ := ih (p + 2)
    exact ⟨q, p + 2, round_of_ones rfl rfl, hq⟩

/-- A card that is accepted and stays busy. -/
theorem spiSdcardInit_hangs :
    ¬∃ fuel, Halts (spiSdcardInit onesCard freeHost fuel (some sampleHandle) 50000000 onesSpi) := by
  rintro ⟨fuel, hfuel⟩
  obtain ⟨s₂, hwake, -⟩ := @wakes_at onesCard 6 (by decide +kernel)
  have hready : Ready freeHost sampleHandle 50000000 := by
    constructor <;> decide
  obtain ⟨s', hs'⟩ := spiSdcardInit_runs rfl hready hwake
    ⟨fun _ => rfl, fun n => onesCard_rounds n _⟩ fuel
  exact hfuel s' hs'

end Cheshire.SpiSdcard
