import Cheshire.SpiSdcardTalk

/-!
# Waiting for the SD card after a block

A card that has accepted a block is busy: it sends zero bytes, and then 0xFF until the host sends
something. The driver waits with the two polls of a command without sending one, so that the first
busy byte is taken for the response to that command.

**Theorem (`write_iff`).** A write to a card that answers the command and accepts all blocks
returns 0 exactly if the card is busy for at least one byte each time, and not for too long. (The
response to the command has to be among the first seven bytes.)
-/

namespace Cheshire.SpiSdcard

open Lib Cmd

/-! ## A card that accepts everything -/

/-- How many bytes the card takes to respond to the command, its response, its data responses, and
how many zero bytes follow each of them and the stop transaction. -/
structure WriteCard where
  delay : ℕ
  r1 : Byte
  accept : ℕ → Byte
  busy : ℕ → ℕ
  stopBusy : ℕ
  r1_response : noResponse r1 = false
  accept_accepts : ∀ b, accept b &&& 0x1F = 0x05

namespace WriteCard

inductive State
  /-- `k` bytes of the command have been received. -/
  | command (k : ℕ)
  /-- `j` bytes are sent before the response. -/
  | response (j : ℕ)
  /-- Before block `b`, with `n` zero bytes still to send. -/
  | line (b n : ℕ)
  /-- `k` bytes of the token, block `b` and its checksum have been received. -/
  | packet (b k : ℕ)
  | answer (b : ℕ)
deriving DecidableEq, Repr

variable (w : WriteCard)

def step : State → Event Byte → State
  | .command k, .host _ => if k = 5 then .response w.delay else .command (k + 1)
  | .response 0, .device _ => .line 0 0
  | .response (j + 1), .device _ => .response j
  | .line b n, .device _ => .line b (n - 1)
  | .line b _, .host x => if x = 0xFD then .line b w.stopBusy else .packet b 1
  | .packet b k, .host _ => if k = 514 then .answer b else .packet b (k + 1)
  | .answer b, .device _ => .line (b + 1) (w.busy b)
  | st, _ => st

/-- What the card sends if it is asked for a byte. -/
def sends : State → Byte
  | .response 0 => w.r1
  | .line _ (_ + 1) => 0
  | .answer b => w.accept b
  | _ => 0xFF

def device : Device State Byte := ⟨w.step, fun st x => x = w.sends st⟩

instance (st : State) (x : Byte) : Decidable (w.device.may st x) :=
  inferInstanceAs (Decidable (x = w.sends st))

/-- What the driver can cope with. -/
structure Passes (len : ℕ) : Prop where
  response : w.delay < 7
  busy : ∀ b < len, 1 ≤ w.busy b ∧ w.busy b < r1bTimeout
  stop : 1 < len → 1 ≤ w.stopBusy ∧ w.stopBusy < r1bTimeout

/-! ## Sequences of bytes -/

/-- The state after `i` bytes of the card. -/
def after (i : ℕ) (st : State) : State := (fun st => w.step st (.device 0))^[i] st

variable {w} {bus : Bus} {st : State} {b n j k i p : ℕ}

theorem step_device (st : State) (x : Byte) : w.step st (.device x) = w.step st (.device 0) := by
  cases st with
  | response j => cases j <;> rfl
  | _ => rfl

theorem after_succ (i : ℕ) (st : State) :
    w.after (i + 1) st = w.step (w.after i st) (.device 0) :=
  Function.iterate_succ_apply' _ _ _

theorem run_reads (n : ℕ) : w.device.run st (reads bus p n) = w.after n st := by
  induction n with
  | zero => rfl
  | succ n ih =>
    rw [reads_succ, Device.run_concat, ih, after_succ, ← step_device _ (bus.wire (p + n))]
    rfl

theorem plays_reads (h : w.device.Plays st (reads bus p n)) :
    ∀ i < n, bus.wire (p + i) = w.sends (w.after i st) := by
  induction n with
  | zero => exact fun i hi => absurd hi (Nat.not_lt_zero _)
  | succ n ih =>
    rw [reads_succ, Device.plays_concat, run_reads] at h
    obtain ⟨hplays, hmay⟩ := h
    intro i hi
    rcases Nat.lt_succ_iff_lt_or_eq.1 hi with hi | rfl
    · exact ih hplays i hi
    · exact hmay

theorem after_line (i : ℕ) : w.after i (.line b n) = .line b (n - i) := by
  induction i with
  | zero => rfl
  | succ i ih =>
    rw [after_succ, ih]
    rfl

theorem after_response (h : i ≤ j) : w.after i (.response j) = .response (j - i) := by
  induction i with
  | zero => rfl
  | succ i ih =>
    rw [after_succ, ih (by omega), show j - i = j - (i + 1) + 1 by omega]
    rfl

theorem sends_line (b n : ℕ) : w.sends (.line b n) = if n = 0 then 0xFF else 0 := by
  cases n <;> rfl

theorem sends_response (j : ℕ) : w.sends (.response j) = if j = 0 then w.r1 else 0xFF := by
  cases j <;> rfl

variable (w) in
/-- The state after the bytes `r` of the command. -/
def afterCommand (r : List Byte) : State :=
  if r.length = 6 then .response w.delay else .command r.length

theorem run_command {l : List Byte} (hl : l.length = 6) :
    w.device.run (.command 0) (l.map .host) = .response w.delay := by
  have hstep (r : List Byte) (x : Byte) (hr : r.length < 6) :
      w.step (w.afterCommand r) (.host x) = w.afterCommand (r ++ [x]) := by
    have hbefore : w.afterCommand r = .command r.length := if_neg (by omega)
    rw [hbefore]
    exact if_congr (by simp) rfl (by rw [List.length_append]; rfl)
  have hend : w.afterCommand l = .response w.delay := if_pos hl
  rw [← hend]
  exact w.device.run_host hstep hl.le

/-- The state after the bytes `r` of a packet that follow its token. -/
def afterPacket (b : ℕ) (r : List Byte) : State :=
  if r.length = 514 then .answer b else .packet b (r.length + 1)

theorem run_packet {l : List Byte} (hl : l.length = 514) :
    w.device.run (.packet b 1) (l.map .host) = .answer b := by
  have hstep (r : List Byte) (x : Byte) (hr : r.length < 514) :
      w.step (afterPacket b r) (.host x) = afterPacket b (r ++ [x]) := by
    have hbefore : afterPacket b r = .packet b (r.length + 1) := if_neg (by omega)
    rw [hbefore]
    exact if_congr (by simp) rfl (by rw [List.length_append]; rfl)
  have hend : afterPacket b l = .answer b := if_pos hl
  rw [← hend]
  exact w.device.run_host hstep hl.le

theorem run_packetOf {tok : Byte} (htok : tok ≠ 0xFD) {d : List Byte} (hd : d.length = 512)
    (computeCrc : Bool) :
    w.device.run (.line b n) ((packetOf tok computeCrc d).map .host) = .answer b := by
  have htoken : w.step (.line b n) (.host tok) = .packet b 1 := if_neg htok
  show w.device.run (w.step (.line b n) (.host tok)) _ = _
  rw [htoken]
  exact run_packet (by simp [hd])

/-! ## The driver -/

section Driver

variable {m : Mem} {buf block len : U64} {computeCrc : Bool}

theorem wire_line (h : w.device.Plays (.line b n) (reads bus p k)) :
    ∀ i < k, bus.wire (p + i) = if n - i = 0 then 0xFF else 0 := by
  intro i hi
  rw [plays_reads h i hi, after_line, sends_line]

/-- The first poll copes with `n` zero bytes if there is one. -/
theorem response_meets {E : CInt → State → Prop} {C : Prop} (b n : ℕ)
    (hE : ∀ c st, c ≠ 0 → C → ¬1 ≤ n → E c st) :
    Meets bus w.device m (fun st => st = .line b n ∧ C) (poll bus 8 (.rx, 0) noResponse 0x12)
      (fun st => st = .line b (n - 1) ∧ C ∧ 1 ≤ n) E := by
  have hff : noResponse 0xFF = true := rfl
  have h00 : noResponse 0 = false := rfl
  refine poll_meets (by decide) (by decide) ?_ ?_
  · rintro p k st - hskip hstop ⟨rfl, hC⟩ hplays
    have hwire := wire_line hplays
    have hn : 1 ≤ n := by
      by_contra hn
      rw [hwire k (by omega), if_pos (by omega), hff] at hstop
      exact absurd hstop.symm Bool.false_ne_true
    have hk : k = 0 := by
      by_contra hk
      have hagain := hskip 0 (by omega)
      rw [hwire 0 (by omega), if_neg (by omega), h00] at hagain
      exact absurd hagain Bool.false_ne_true
    refine ⟨?_, hC, hn⟩
    rw [run_reads, after_line, hk]
  · rintro p st hskip ⟨rfl, hC⟩ hplays
    refine hE _ _ (by decide) hC fun hn => ?_
    have hagain := hskip 0 (by decide)
    rw [wire_line hplays 0 (by decide), if_neg (by omega), h00] at hagain
    exact absurd hagain Bool.false_ne_true

/-- The second poll copes with `n` more if they are less than the timeout allows. -/
theorem busy_meets {E : CInt → State → Prop} {C : Prop} (b n : ℕ) {timeout : ℕ}
    (ht : timeout ≠ 0) {code : CInt} (hcode : code ≠ 0)
    (hE : ∀ c st, c ≠ 0 → C → ¬n + 1 < timeout → E c st) :
    Meets bus w.device m (fun st => st = .line b n ∧ C) (poll bus timeout (.rdummy, 0) (· = 0) code)
      (fun st => st = .line b 0 ∧ C ∧ n + 1 < timeout) E := by
  refine poll_meets (by decide) ht ?_ ?_
  · rintro p k st hk hskip hstop ⟨rfl, hC⟩ hplays
    have hwire := wire_line hplays
    have hle : n ≤ k := by
      by_contra hlt
      rw [hwire k (by omega), if_neg (by omega)] at hstop
      exact absurd hstop (by decide)
    have hge : k ≤ n := by
      by_contra hlt
      have hagain := hskip n (by omega)
      rw [hwire n (by omega), if_pos (by omega)] at hagain
      exact absurd hagain (by decide)
    refine ⟨?_, hC, by omega⟩
    rw [run_reads, after_line, show n - (k + 1) = 0 by omega]
  · rintro p st hskip ⟨rfl, hC⟩ hplays
    refine hE _ _ hcode hC fun hlt => ?_
    have hagain := hskip n hlt
    rw [wire_line hplays n (by omega), if_pos (by omega)] at hagain
    exact absurd hagain (by decide)

/-- What the driver has coped with before block `b`. -/
def Coped (w : WriteCard) (b : ℕ) : Prop :=
  w.delay < 7 ∧ ∀ i < b, 1 ≤ w.busy i ∧ w.busy i < r1bTimeout

/-- The response to the command. -/
theorem opening_meets {E : CInt → State → Prop} (hE : ∀ c st, c ≠ 0 → ¬w.delay < 7 → E c st) :
    Meets bus w.device m (fun st => st = .response w.delay) (poll bus 8 (.rx, 0) noResponse 0x12)
      (fun st => st = .line 0 0 ∧ w.Coped 0) E := by
  have hff : noResponse 0xFF = true := rfl
  have hwire {p k : ℕ} (hplays : w.device.Plays (.response w.delay) (reads bus p k)) (i : ℕ)
      (hi : i < k) (hle : i ≤ w.delay) :
      bus.wire (p + i) = if w.delay - i = 0 then w.r1 else 0xFF := by
    rw [plays_reads hplays i hi, after_response hle, sends_response]
  refine poll_meets (by decide) (by decide) ?_ ?_
  · rintro p k st hk hskip hstop rfl hplays
    have hge : k ≤ w.delay := by
      by_contra hlt
      have hagain := hskip w.delay (by omega)
      rw [hwire hplays _ (by omega) le_rfl, if_pos (by omega), w.r1_response] at hagain
      exact absurd hagain Bool.false_ne_true
    have hle : w.delay ≤ k := by
      by_contra hlt
      rw [hwire hplays k (by omega) (by omega), if_neg (by omega), hff] at hstop
      exact absurd hstop.symm Bool.false_ne_true
    refine ⟨?_, by omega, fun i hi => absurd hi (Nat.not_lt_zero _)⟩
    rw [run_reads, after_succ, after_response hge, show w.delay - k = 0 by omega]
    rfl
  · rintro p st hskip rfl hplays
    refine hE _ _ (by decide) fun hlt => ?_
    have hagain := hskip w.delay (by omega)
    rw [hwire hplays _ (by omega) le_rfl, if_pos (by omega), w.r1_response] at hagain
    exact absurd hagain Bool.false_ne_true

theorem accepted_meets {E : CInt → State → Prop} {C : Prop} (b : ℕ) :
    Meets bus w.device m (fun st => st = .answer b ∧ C) (awaitAccepted bus)
      (fun st => st = .line (b + 1) (w.busy b) ∧ C) E := by
  refine awaitAccepted_meets ?_ ?_
  · rintro p st - ⟨rfl, hC⟩ -
    exact ⟨by rw [run_reads]; rfl, hC⟩
  · rintro p e st - hacc ⟨rfl, hC⟩ hplays
    have hsent : bus.wire p = w.accept b := plays_reads hplays 0 Nat.one_pos
    rw [hsent] at hacc
    exact absurd (w.accept_accepts b) hacc

/-- What a write that fails returns, and why. -/
abbrev Stuck (w : WriteCard) (len : ℕ) : CInt → State → Prop := fun c _ => c ≠ 0 ∧ ¬w.Passes len

theorem writeBlock_copes (hdepth : 1 ≤ bus.rxDepth) {len b : ℕ} (hb : b < len) {tok : Byte}
    (htok : tok ≠ 0xFD) :
    Meets bus w.device m (fun st => st = .line b 0 ∧ w.Coped b)
      (writeBlock bus buf tok computeCrc b) (fun st => st = .line (b + 1) 0 ∧ w.Coped (b + 1))
      (w.Stuck len) := by
  refine writeBlock_meets (A := fun st => st = .answer b ∧ w.Coped b) hdepth ?_
    (accepted_meets b) ?_
  · rintro _ ⟨rfl, hC⟩
    exact ⟨run_packetOf htok (by simp [blockOf]) _, hC⟩
  · have hresponse : Meets bus w.device m _ _ _ (w.Stuck len) :=
      response_meets (C := w.Coped b) (b + 1) (w.busy b) fun c st hc _ hn =>
        ⟨hc, fun h => hn (h.busy b hb).1⟩
    refine busyWait_meets hresponse (Meets.mono (busy_meets _ _ (by decide) (by decide) ?_) ?_)
    · intro c st hc hC hn
      refine ⟨hc, fun h => hn ?_⟩
      have := h.busy b hb
      omega
    · rintro st ⟨hst, ⟨⟨hdelay, hbusy⟩, hpos⟩, hlt⟩
      refine ⟨hst, hdelay, fun i hi => ?_⟩
      rcases Nat.lt_succ_iff_lt_or_eq.1 hi with hi | rfl
      · exact hbusy i hi
      · exact ⟨hpos, by omega⟩

theorem endWrite_copes :
    Meets bus w.device m (fun st => st = .line len.toNat 0 ∧ w.Coped len.toNat) (endWrite bus len)
      (fun _ => w.Passes len.toNat) (w.Stuck len.toNat) := by
  have hmulti : len > 1 ↔ 1 < len.toNat := BitVec.lt_def
  refine endWrite_meets (A := fun st => st = .line len.toNat w.stopBusy ∧ w.Coped len.toNat) ?_
    (fun hm => response_meets _ _ ?_) (fun hm => busy_meets _ _ (by decide) (by decide) ?_) ?_
  · rintro - _ ⟨rfl, hC⟩
    exact ⟨rfl, hC⟩
  · exact fun c st hc _ hn => ⟨hc, fun h => hn (h.stop (hmulti.1 hm)).1⟩
  · intro c st hc hC hn
    refine ⟨hc, fun h => hn ?_⟩
    have := h.stop (hmulti.1 hm)
    omega
  · intro st h
    by_cases hm : len > 1
    · rw [if_pos hm] at h
      obtain ⟨-, ⟨⟨hdelay, hbusy⟩, hpos⟩, hlt⟩ := h
      exact ⟨hdelay, hbusy, fun _ => ⟨hpos, by omega⟩⟩
    · rw [if_neg hm] at h
      obtain ⟨-, hdelay, hbusy⟩ := h
      exact ⟨hdelay, hbusy, fun h1 => absurd (hmulti.2 h1) hm⟩

/-- The whole write. -/
theorem writeBlocks_copes (hdepth : 1 ≤ bus.rxDepth) (hlen : len ≠ 0) (w : WriteCard) (m : Mem)
    (buf block : U64) (computeCrc : Bool) :
    Meets bus w.device m (fun st => st = .command 0) (writeBlocks bus buf block len computeCrc)
      (fun _ => w.Passes len.toNat) (w.Stuck len.toNat) := by
  refine writeBlocks_meets (I := fun b st => st = .line b 0 ∧ w.Coped b) hlen ?_
    (fun b hb => writeBlock_copes hdepth hb (by split_ifs <;> decide)) endWrite_copes
  refine writeCmd_meets (A := fun st => st = .response w.delay) ?_ ?_
  · rintro _ rfl
    exact run_command (by simp)
  · exact opening_meets fun c st hc hdelay => ⟨hc, fun h => hdelay h.response⟩

/-- **Main result.** A write to a card that accepts everything returns 0 exactly if the driver can
cope with the busy times. -/
theorem write_iff (hn : NoFail bus) (hdepth : 1 ≤ bus.rxDepth) (hlen : len ≠ 0) (w : WriteCard)
    (s : Spi) (hplays : w.device.Plays (.command 0)
      (said bus s (spiSdcardWriteBlocks bus buf block len computeCrc s).2)) :
    (spiSdcardWriteBlocks bus buf block len computeCrc s).1 = 0 ↔ w.Passes len.toNat := by
  have hrun := writeBlocks_copes hdepth hlen w (s.mem .ext) buf block computeCrc s (.command 0) rfl
  unfold spiSdcardWriteBlocks returned at hplays ⊢
  cases hres : writeBlocks bus buf block len computeCrc s with
  | ok _ s' =>
    rw [hres] at hrun hplays
    obtain ⟨l, htalks, hpass⟩ := hrun
    rw [htalks.said] at hplays
    exact iff_of_true rfl (hpass rfl hplays)
  | error e s' =>
    rw [hres] at hrun hplays
    rcases hrun with hfail | ⟨l, htalks, hbad⟩
    · exact absurd hn hfail.fails
    · rw [htalks.said] at hplays
      obtain ⟨hcode, hpass⟩ := hbad rfl hplays
      exact iff_of_false hcode hpass

end Driver

/-- A card that responds at once, accepts blocks, and is busy for `n` bytes. -/
def ofBusy (n : ℕ) : WriteCard where
  delay := 0
  r1 := 0
  accept _ := 0xE5
  busy _ := n
  stopBusy := n
  r1_response := rfl
  accept_accepts _ := rfl

/-- What it sends if one block is written: the response, the data response and `n` busy bytes. -/
def busFor (n : ℕ) : Bus where
  wire i := if i = 0 then 0 else if i = 1 then 0xE5 else if i < 2 + n then 0 else 0xFF
  fails _ := none
  rxDepth := 64

/-- A block that is written while the card is busy for one byte. -/
theorem write_iff_one :
    (spiSdcardWriteBlocks (busFor 1) 0x1000 3 1 true onesSpi).1 = 0 ↔ (ofBusy 1).Passes 1 :=
  write_iff (fun _ => rfl) (by decide) (by decide) (ofBusy 1) onesSpi (by decide +kernel)

/-- A card that is not busy is not recognised as ready. -/
theorem ready_card_times_out :
    NoFail (busFor 0) ∧ (ofBusy 0).delay < 7 ∧ (∀ b, (ofBusy 0).busy b < r1bTimeout) ∧
    (ofBusy 0).device.Plays (.command 0) (said (busFor 0) onesSpi
      (spiSdcardWriteBlocks (busFor 0) 0x1000 3 1 true onesSpi).2) ∧
    (spiSdcardWriteBlocks (busFor 0) 0x1000 3 1 true onesSpi).1 = 0x12 :=
  ⟨fun _ => rfl, by decide, fun _ => show 0 < r1bTimeout by decide, by decide +kernel,
    by decide +kernel⟩

end WriteCard

end Cheshire.SpiSdcard
