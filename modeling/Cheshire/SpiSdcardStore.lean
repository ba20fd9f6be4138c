import Cheshire.SpiSdcardCrc16
import Cheshire.SpiSdcardTalk

/-!
# What a write stores

A block-addressed card follows the bytes on the line: the write commands, their response, the
packets of token, block and checksum, the data responses, and whether it is busy. It stores a block
with a right checksum when it answers that it accepts it, and is lost if the host does anything
that it does not expect, as sending to it while it is busy.

**Theorem (`write_stores`).** Whatever the card answers, a write that returns 0 has stored the
blocks of the buffer where they belong, and nothing else.
-/

namespace Cheshire.SpiSdcard

open Lib Cmd

/-! ## The card -/

namespace StoreCard

inductive Phase
  | idle
  | command (bytes : List Byte)
  /-- A write of one block or of several was commanded, from block `next` on. -/
  | response (multi : Bool) (next : ℕ)
  | ready (multi : Bool) (next : ℕ)
  | packet (multi : Bool) (next : ℕ) (bytes : List Byte)
  | answer (multi : Bool) (next : ℕ) (bytes : List Byte)
  | lost
deriving DecidableEq

end StoreCard

structure StoreCard where
  phase : StoreCard.Phase
  busy : Bool
  blocks : ℕ → List Byte

namespace StoreCard

/-- The phase after the five bytes of a command and its trailer. -/
def accept : List Byte → Phase
  | [op, a₃, a₂, a₁, a₀] =>
    let next := le 4 fun i => [a₀, a₁, a₂, a₃].getD i 0
    if op = 0x58 then .response false next
    else if op = 0x59 then .response true next
    else .idle
  | _ => .lost

/-- The two bytes after the block are its checksum, highest byte first. -/
def crcRight (bytes : List Byte) : Bool := bytes = codeword (bytes.take 512)

/-- The next packet of a write of several blocks, or the next command. -/
def afterBlock (multi : Bool) (next : ℕ) : Phase := if multi then .ready true (next + 1) else .idle

def step (c : StoreCard) : Event Byte → StoreCard
  | .host b =>
    match c.phase with
    | .idle =>
      if c.busy then { c with phase := .lost }
      else if b &&& 0xC0 = 0x40 then { c with phase := .command [b] }
      else c
    | .command bytes =>
      if bytes.length < 5 then { c with phase := .command (bytes ++ [b]) }
      else { c with phase := accept bytes }
    | .ready multi next =>
      if c.busy then { c with phase := .lost }
      else if b = (if multi then 0xFC else 0xFE) then { c with phase := .packet multi next [] }
      else if multi ∧ b = 0xFD then { c with phase := .idle, busy := true }
      else { c with phase := .lost }
    | .packet multi next bytes =>
      if bytes.length < 513 then { c with phase := .packet multi next (bytes ++ [b]) }
      else { c with phase := .answer multi next (bytes ++ [b]) }
    | _ => { c with phase := .lost }
  | .device b =>
    match c.phase with
    | .idle | .ready _ _ => { c with busy := b = 0 }
    | .response multi next =>
      if noResponse b then c else { c with phase := .ready multi next, busy := false }
    | .answer multi next bytes =>
      if b &&& 0x1F = 0x05 ∧ crcRight bytes then
        ⟨afterBlock multi next, true, Function.update c.blocks next (bytes.take 512)⟩
      else { c with phase := .lost }
    | _ => { c with phase := .lost }
  | .deselect =>
    match c.phase with
    | .idle => c
    | _ => { c with phase := .lost }

/-- The card may send anything. -/
def device : Device StoreCard Byte := ⟨step, fun _ _ => True⟩

/-! ## Sequences of bytes -/

section Runs

variable {bus : Bus} {multi busy : Bool} {next n k p : ℕ} {blocks : ℕ → List Byte} {ph : Phase}

/-- The phases in which the card says whether it is busy. -/
def Quiet (ph : Phase) : Prop := ph = .idle ∨ ∃ multi next, ph = .ready multi next

theorem run_quiet (h : Quiet ph) (k : ℕ) : device.run ⟨ph, busy, blocks⟩ (reads bus p (k + 1)) =
    ⟨ph, decide (bus.wire (p + k) = 0), blocks⟩ := by
  have hstep (busy : Bool) (b : Byte) :
      step ⟨ph, busy, blocks⟩ (.device b) = ⟨ph, decide (b = 0), blocks⟩ := by
    rcases h with rfl | ⟨multi, next, rfl⟩ <;> rfl
  induction k generalizing busy with
  | zero => exact hstep busy _
  | succ k ih =>
    rw [reads_succ, Device.run_concat, ih]
    exact hstep _ _

theorem run_response (hskip : ∀ j < k, noResponse (bus.wire (p + j)) = true)
    (hstop : noResponse (bus.wire (p + k)) = false) :
    device.run ⟨.response multi next, busy, blocks⟩ (reads bus p (k + 1)) =
      ⟨.ready multi next, false, blocks⟩ := by
  have hwait (j : ℕ) (hj : j ≤ k) :
      device.run ⟨.response multi next, busy, blocks⟩ (reads bus p j) =
        ⟨.response multi next, busy, blocks⟩ := by
    induction j with
    | zero => rfl
    | succ j ih =>
      rw [reads_succ, Device.run_concat, ih (by omega)]
      exact if_pos (hskip j hj)
  rw [reads_succ, Device.run_concat, hwait k le_rfl]
  exact if_neg (by rw [hstop]; exact Bool.false_ne_true)

theorem run_command {op : Byte} (hop : op &&& 0xC0 = 0x40) (a₃ a₂ a₁ a₀ trailer : Byte) :
    device.run ⟨.idle, false, blocks⟩ ([op, a₃, a₂, a₁, a₀, trailer].map .host) =
      ⟨accept [op, a₃, a₂, a₁, a₀], false, blocks⟩ := by
  have hstart : step ⟨.idle, false, blocks⟩ (.host op) = ⟨.command [op], false, blocks⟩ :=
    if_pos hop
  show device.run (step ⟨.idle, false, blocks⟩ (.host op)) _ = _
  rw [hstart]
  rfl

/-- The phase after the bytes `r` of a packet that follow its token. -/
def afterPacket (multi : Bool) (next : ℕ) (r : List Byte) : Phase :=
  if r.length = 514 then .answer multi next r else .packet multi next r

theorem run_packet {l : List Byte} (hl : l.length = 514) :
    device.run ⟨.packet multi next [], busy, blocks⟩ (l.map .host) =
      ⟨.answer multi next l, busy, blocks⟩ := by
  have hstep (r : List Byte) (b : Byte) (hr : r.length < 514) :
      step ⟨afterPacket multi next r, busy, blocks⟩ (.host b) =
        ⟨afterPacket multi next (r ++ [b]), busy, blocks⟩ := by
    have hbefore : afterPacket multi next r = .packet multi next r := if_neg (by omega)
    rw [hbefore]
    by_cases hlast : r.length < 513
    · have hafter : afterPacket multi next (r ++ [b]) = .packet multi next (r ++ [b]) :=
        if_neg (by simp; omega)
      rw [hafter]
      exact if_pos hlast
    · have hafter : afterPacket multi next (r ++ [b]) = .answer multi next (r ++ [b]) :=
        if_pos (by simp; omega)
      rw [hafter]
      exact if_neg hlast
  have hend : afterPacket multi next l = .answer multi next l := if_pos hl
  rw [← hend]
  exact @Device.run_host _ _ device (fun r => ⟨afterPacket multi next r, busy, blocks⟩) _ hstep l
    hl.le

/-- The checksum that the driver computes is the one that the card expects. -/
theorem packetOf_eq (tok : Byte) (d : List Byte) : packetOf tok true d = tok :: codeword d := by
  obtain ⟨h0, h1⟩ := byteOf_crc16 d
  rw [codeword, ← h0, ← h1]
  rfl

theorem run_packetOf {d : List Byte} (hd : d.length = 512) :
    device.run ⟨.ready multi next, false, blocks⟩
      ((packetOf (if multi then 0xFC else 0xFE) true d).map .host) =
        ⟨.answer multi next (codeword d), false, blocks⟩ := by
  have htoken : step ⟨.ready multi next, false, blocks⟩ (.host (if multi then 0xFC else 0xFE)) =
      ⟨.packet multi next [], false, blocks⟩ := if_pos rfl
  rw [packetOf_eq]
  show device.run (step ⟨.ready multi next, false, blocks⟩
    (.host (if multi then 0xFC else 0xFE))) _ = _
  rw [htoken]
  exact run_packet (by simp [codeword, hd])

theorem run_answer {d : List Byte} (hd : d.length = 512) (hacc : bus.wire p &&& 0x1F = 0x05) :
    device.run ⟨.answer multi next (codeword d), busy, blocks⟩ (reads bus p 1) =
      ⟨afterBlock multi next, true, Function.update blocks next d⟩ := by
  have htake : (codeword d).take 512 = d := List.take_left' hd
  have hright : crcRight (codeword d) = true := by
    rw [crcRight, htake, decide_eq_true rfl]
  show step ⟨.answer multi next (codeword d), busy, blocks⟩ (.device (bus.wire p)) = _
  refine (if_pos ⟨hacc, hright⟩).trans ?_
  rw [htake]

end Runs

/-! ## The driver -/

section Driver

variable {bus : Bus} {m : Mem} {buf block len : U64} {multi : Bool} {next : ℕ}
  {blocks : ℕ → List Byte} {ph : Phase} {r : List Byte}

/-- What a write that fails returns. -/
abbrev Fails : CInt → StoreCard × List Byte → Prop := fun e _ => e ≠ 0

/-- Reading does not change the record. -/
theorem recording_reads (c : StoreCard) (r : List Byte) (p n : ℕ) :
    device.recording.run (c, r) (reads bus p n) = (device.run c (reads bus p n), r) := by
  have hsent : Device.sent (reads bus p n) = [] := by
    have hmap : reads bus p n = ((List.range n).map fun i => bus.wire (p + i)).map .device :=
      (List.map_map).symm
    rw [hmap, Device.sent_device]
  rw [Device.run_recording, hsent, List.append_nil]

theorem recording_host (c : StoreCard) (r l : List Byte) :
    device.recording.run (c, r) (l.map .host) = (device.run c (l.map .host), r ++ l) := by
  rw [Device.run_recording, Device.sent_host]

theorem awaitQuiet_meets (h : Quiet ph) :
    Meets bus device.recording m (fun st => ∃ busy, st = (⟨ph, busy, blocks⟩, r))
      (poll bus 8 (.rx, 0) noResponse 0x12) (fun st => ∃ busy, st = (⟨ph, busy, blocks⟩, r))
      Fails := by
  refine poll_meets (by decide) (by decide) ?_ fun p st _ _ _ => (by decide : (0x12 : CInt) ≠ 0)
  rintro p k st - - - ⟨busy, rfl⟩ -
  exact ⟨_, by rw [recording_reads, run_quiet h]⟩

/-- After the second poll the card is not busy. -/
theorem awaitReady_meets (h : Quiet ph) {timeout : ℕ} (ht : timeout ≠ 0) :
    Meets bus device.recording m (fun st => ∃ busy, st = (⟨ph, busy, blocks⟩, r))
      (poll bus timeout (.rdummy, 0) (· = 0) 0x13) (fun st => st = (⟨ph, false, blocks⟩, r))
      Fails := by
  refine poll_meets (by decide) ht ?_ fun p st _ _ _ => (by decide : (0x13 : CInt) ≠ 0)
  rintro p k st - - hstop ⟨busy, rfl⟩ -
  rw [recording_reads, run_quiet h, hstop]

theorem accepted_meets {d : List Byte} (hd : d.length = 512) :
    Meets bus device.recording m
      (fun st => st = (⟨.answer multi next (codeword d), false, blocks⟩, r)) (awaitAccepted bus)
      (fun st => ∃ busy, st =
        (⟨afterBlock multi next, busy, Function.update blocks next d⟩, r)) Fails := by
  refine awaitAccepted_meets ?_ fun p e st he _ _ _ => he
  rintro p _ hacc rfl -
  exact ⟨true, by rw [recording_reads, run_answer hd hacc]⟩

/-- The bytes of the command. -/
theorem writeCmd_bytes (hblock : block.toNat < 2 ^ 32) (len : U64) : ∃ trailer,
    (List.range 6).map (byteOf (writeCmd block len).toNat) =
      [if len > 1 then 0x59 else 0x58, byteOf block.toNat 3, byteOf block.toNat 2,
        byteOf block.toNat 1, byteOf block.toNat 0, trailer] := by
  have harg : (block.setWidth 32).toNat = block.toNat := by
    rw [BitVec.toNat_setWidth, Nat.mod_eq_of_lt hblock]
  refine ⟨byteOf (writeCmd block len).toNat 5, ?_⟩
  rw [writeCmd, buildCmd_bytes, harg]

/-- The card takes the address of a command for the number of a block. -/
theorem accept_bytes (len : U64) {n : ℕ} (hn : n < 2 ^ 32) :
    accept [if len > 1 then 0x59 else 0x58, byteOf n 3, byteOf n 2, byteOf n 1, byteOf n 0] =
      .response (len > 1) n := by
  have hnext : le 4 (byteOf n) = n := by
    rw [le_byteOf]
    exact Nat.mod_eq_of_lt hn
  show (if (if len > 1 then 0x59 else 0x58 : Byte) = 0x58 then
      Phase.response false (le 4 (byteOf n))
    else if (if len > 1 then 0x59 else 0x58 : Byte) = 0x59 then
      Phase.response true (le 4 (byteOf n))
    else .idle) = _
  rw [hnext]
  by_cases hm : len > 1
  · rw [if_pos hm, if_neg (by decide), if_pos rfl, decide_eq_true hm]
  · rw [if_neg hm, if_pos rfl, decide_eq_false hm]

theorem opening_meets (hblock : block.toNat < 2 ^ 32) :
    Meets bus device.recording m (fun st => st = (⟨.idle, false, blocks⟩, []))
      (sdCmd bus (writeCmd block len) .r1 (.rx, 0) true)
      (fun st => st = (⟨.ready (len > 1) block.toNat, false, blocks⟩,
        (List.range 6).map (byteOf (writeCmd block len).toNat))) Fails := by
  have hop : (if len > 1 then 0x59 else 0x58 : Byte) &&& 0xC0 = 0x40 := by split_ifs <;> decide
  refine writeCmd_meets
    (A := fun st => st = (⟨.response (len > 1) block.toNat, false, blocks⟩,
      (List.range 6).map (byteOf (writeCmd block len).toNat))) ?_ ?_
  · rintro _ rfl
    obtain ⟨trailer, hbytes⟩ := writeCmd_bytes hblock len
    rw [hbytes, recording_host, run_command hop, accept_bytes len hblock]
    rfl
  · refine poll_meets (by decide) (by decide) ?_ fun p st _ _ _ => (by decide : (0x12 : CInt) ≠ 0)
    rintro p k _ - hskip hstop rfl -
    rw [recording_reads, run_response hskip hstop]

/-! ## Blocks -/

/-- The blocks of the card when `b` blocks of the buffer have been stored from `block` on. -/
def storedAfter (m : Mem) (buf : U64) (block : ℕ) (blocks : ℕ → List Byte) (b : ℕ) :
    ℕ → List Byte := fun n =>
  if block ≤ n ∧ n < block + b then blockOf m (buf + BitVec.ofNat 64 (512 * (n - block)))
  else blocks n

/-- What is sent for block `b` of the buffer: the token, the block and its checksum. -/
def packetAt (m : Mem) (buf : U64) (multi : Bool) (b : ℕ) : List Byte :=
  (if multi then 0xFC else 0xFE) :: codeword (blockOf m (buf + BitVec.ofNat 64 (512 * b)))

theorem storedAfter_zero (m : Mem) (buf : U64) (block : ℕ) :
    storedAfter m buf block blocks 0 = blocks :=
  funext fun _ => if_neg (by omega)

theorem storedAfter_succ (m : Mem) (buf : U64) (block b : ℕ) :
    Function.update (storedAfter m buf block blocks b) (block + b)
      (blockOf m (buf + BitVec.ofNat 64 (512 * b))) = storedAfter m buf block blocks (b + 1) := by
  funext n
  unfold storedAfter
  by_cases hn : n = block + b
  · subst hn
    rw [Function.update_self, if_pos (by omega), Nat.add_sub_cancel_left]
  · rw [Function.update_of_ne hn]
    exact if_congr (by omega) rfl rfl

/-- The phase before block `b` of a write. -/
def before (multi : Bool) (next b : ℕ) : Phase :=
  if multi then .ready true (next + b) else if b = 0 then .ready false next else .idle

/-- Before block `b` the card is ready, has stored the blocks before it, and has been sent the
command and their packets. -/
def Written (m : Mem) (buf block len : U64) (blocks : ℕ → List Byte) (b : ℕ)
    (st : StoreCard × List Byte) : Prop :=
  st = (⟨before (len > 1) block.toNat b, false, storedAfter m buf block.toNat blocks b⟩,
    (List.range 6).map (byteOf (writeCmd block len).toNat) ++
      (List.range b).flatMap (packetAt m buf (len > 1)))

theorem before_zero (multi : Bool) (next : ℕ) : before multi next 0 = .ready multi next := by
  cases multi <;> rfl

theorem before_of_lt {b : ℕ} (hb : b < len.toNat) :
    before (len > 1) next b = .ready (len > 1) (next + b) := by
  by_cases hm : len > 1
  · rw [decide_eq_true hm]
    rfl
  · have hle : ¬1 < len.toNat := fun h => hm (BitVec.lt_def.2 h)
    obtain rfl : b = 0 := by omega
    exact before_zero _ _

theorem before_succ (multi : Bool) (next b : ℕ) :
    before multi next (b + 1) = afterBlock multi (next + b) := by
  cases multi <;> rfl

theorem quiet_afterBlock (multi : Bool) (next : ℕ) : Quiet (afterBlock multi next) := by
  cases multi with
  | true => exact Or.inr ⟨_, _, rfl⟩
  | false => exact Or.inl rfl

theorem writeBlock_written (hdepth : 1 ≤ bus.rxDepth) {b : ℕ} (hb : b < len.toNat) :
    Meets bus device.recording m (Written m buf block len blocks b)
      (writeBlock bus buf (if len > 1 then 0xFC else 0xFE) true b)
      (Written m buf block len blocks (b + 1)) Fails := by
  have htok : (if len > 1 then 0xFC else 0xFE : Byte) = if decide (len > 1) then 0xFC else 0xFE :=
    if_congr decide_eq_true_iff.symm rfl rfl
  have hd : (blockOf m (buf + BitVec.ofNat 64 (512 * b))).length = 512 := by simp [blockOf]
  generalize hr : (List.range 6).map (byteOf (writeCmd block len).toNat) ++
    (List.range (b + 1)).flatMap (packetAt m buf (len > 1)) = r
  refine writeBlock_meets (A := fun st => st = (⟨.answer (len > 1) (block.toNat + b)
      (codeword (blockOf m (buf + BitVec.ofNat 64 (512 * b)))), false,
      storedAfter m buf block.toNat blocks b⟩, r))
    (B := fun st => ∃ busy, st = (⟨afterBlock (len > 1) (block.toNat + b), busy,
      storedAfter m buf block.toNat blocks (b + 1)⟩, r)) hdepth ?_ ?_ ?_
  · rintro _ rfl
    rw [recording_host, before_of_lt hb, htok, run_packetOf hd, packetOf_eq, ← hr,
      List.range_succ (n := b), List.flatMap_append, ← List.append_assoc, List.flatMap_singleton]
    rfl
  · rw [← storedAfter_succ]
    exact accepted_meets hd
  · have hquiet := quiet_afterBlock (len > 1) (block.toNat + b)
    refine busyWait_meets (awaitQuiet_meets hquiet) ?_
    unfold Written
    rw [before_succ, hr]
    exact awaitReady_meets hquiet (by decide)

/-- What ends a write. -/
def stopAt (len : U64) : List Byte := if len > 1 then [0xFD] else []

theorem endWrite_written (hlen : len ≠ 0) :
    Meets bus device.recording m (Written m buf block len blocks len.toNat) (endWrite bus len)
      (fun st => st = (⟨.idle, false, storedAfter m buf block.toNat blocks len.toNat⟩,
        (List.range 6).map (byteOf (writeCmd block len).toNat) ++
          (List.range len.toNat).flatMap (packetAt m buf (len > 1)) ++ stopAt len)) Fails := by
  have hpos : len.toNat ≠ 0 := fun h => hlen (BitVec.eq_of_toNat_eq h)
  unfold Written
  generalize (List.range 6).map (byteOf (writeCmd block len).toNat) ++
    (List.range len.toNat).flatMap (packetAt m buf (len > 1)) = r
  generalize storedAfter m buf block.toNat blocks len.toNat = stored
  refine endWrite_meets (A := fun st => ∃ busy, st = (⟨.idle, busy, stored⟩, r ++ stopAt len))
    ?_ (fun _ => awaitQuiet_meets (Or.inl rfl))
    (fun _ => awaitReady_meets (Or.inl rfl) (by decide)) ?_
  · rintro hm _ rfl
    refine ⟨true, ?_⟩
    rw [decide_eq_true hm, stopAt, if_pos hm]
    rfl
  · intro st h
    by_cases hm : len > 1
    · rw [if_pos hm] at h
      subst h
      exact congrArg (Prod.mk _) (List.append_nil _)
    · rw [if_neg hm] at h
      subst h
      rw [decide_eq_false hm, stopAt, if_neg hm, before, if_neg Bool.false_ne_true, if_neg hpos]
      rfl

/-- The card and what it has been sent after a write that has returned 0. -/
theorem written_sent (hdepth : 1 ≤ bus.rxDepth) (hlen : len ≠ 0)
    (hblock : block.toNat < 2 ^ 32) (blocks : ℕ → List Byte) (s : Spi)
    (hreturned : (spiSdcardWriteBlocks bus buf block len true s).1 = 0) :
    device.run ⟨.idle, false, blocks⟩ (said bus s
      (spiSdcardWriteBlocks bus buf block len true s).2) =
        ⟨.idle, false, storedAfter (s.mem .ext) buf block.toNat blocks len.toNat⟩ ∧
    Device.sent (said bus s (spiSdcardWriteBlocks bus buf block len true s).2) =
      (List.range 6).map (byteOf (writeCmd block len).toNat) ++
        (List.range len.toNat).flatMap (packetAt (s.mem .ext) buf (len > 1)) ++ stopAt len := by
  have hopen : Meets bus device.recording (s.mem .ext)
      (fun st => st = (⟨.idle, false, blocks⟩, []))
      (sdCmd bus (writeCmd block len) .r1 (.rx, 0) true)
      (Written (s.mem .ext) buf block len blocks 0) Fails := by
    unfold Written
    rw [before_zero, storedAfter_zero, List.range_zero, List.flatMap_nil, List.append_nil]
    exact opening_meets hblock
  have hrun := writeBlocks_meets hlen hopen (fun _ hb => writeBlock_written hdepth hb)
    (endWrite_written hlen) s (⟨.idle, false, blocks⟩, []) rfl
  unfold spiSdcardWriteBlocks returned at hreturned ⊢
  cases hres : writeBlocks bus buf block len true s with
  | ok _ s' =>
    rw [hres] at hrun
    obtain ⟨l, htalks, hstored⟩ := hrun
    have hstored := hstored rfl (Device.plays_of_may _ (fun _ _ => trivial) _ _)
    rw [Device.run_recording, Prod.mk_inj, List.nil_append] at hstored
    show device.run _ (said bus s s') = _ ∧ Device.sent (said bus s s') = _
    rw [htalks.said]
    exact hstored
  | error e s' =>
    rw [hres] at hrun hreturned
    rcases hrun with hfail | ⟨l, -, hcode⟩
    · exact absurd hreturned hfail.code
    · exact absurd hreturned (hcode rfl (Device.plays_of_may _ (fun _ _ => trivial) _ _))

/-- **Main result.** If a write returns 0, the card has stored the blocks of the buffer from `block`
on and no others. The card has been sent the command for one block or several, the packets, and the
stop transaction after several. -/
theorem write_stores (hdepth : 1 ≤ bus.rxDepth) (hlen : len ≠ 0)
    (hend : block.toNat + len.toNat ≤ 2 ^ 32) (blocks : ℕ → List Byte) (s : Spi)
    (hreturned : (spiSdcardWriteBlocks bus buf block len true s).1 = 0) :
    device.run ⟨.idle, false, blocks⟩ (said bus s
      (spiSdcardWriteBlocks bus buf block len true s).2) =
        ⟨.idle, false, storedAfter (s.mem .ext) buf block.toNat blocks len.toNat⟩ ∧
    ∃ trailer, Device.sent (said bus s (spiSdcardWriteBlocks bus buf block len true s).2) =
      [if len > 1 then 0x59 else 0x58, byteOf block.toNat 3, byteOf block.toNat 2,
        byteOf block.toNat 1, byteOf block.toNat 0, trailer] ++
      (List.range len.toNat).flatMap (packetAt (s.mem .ext) buf (len > 1)) ++ stopAt len := by
  have hpos : len.toNat ≠ 0 := fun h => hlen (BitVec.eq_of_toNat_eq h)
  have hblock : block.toNat < 2 ^ 32 := by omega
  obtain ⟨hcard, hsent⟩ := written_sent hdepth hlen hblock blocks s hreturned
  obtain ⟨trailer, hbytes⟩ := writeCmd_bytes hblock len
  rw [hbytes] at hsent
  exact ⟨hcard, trailer, hsent⟩

end Driver

/-- A card that responds at once, accepts two blocks, and is busy for one byte after each of them
and after the stop transaction. -/
def twoBus : Bus where
  wire i := [0x00, 0xE5, 0x00, 0xFF, 0xE5, 0x00, 0xFF, 0x00].getD i 0xFF
  fails _ := none
  rxDepth := 64

/-- The last two blocks. -/
theorem write_stores_two :
    device.run ⟨.idle, false, fun _ => []⟩ (said twoBus onesSpi
      (spiSdcardWriteBlocks twoBus 0x1000 0xFFFFFFFE 2 true onesSpi).2) =
        ⟨.idle, false, storedAfter (onesSpi.mem .ext) 0x1000 0xFFFFFFFE (fun _ => []) 2⟩ :=
  (write_stores (by decide) (by decide) (by decide) (fun _ => []) onesSpi (by decide +kernel)).1

end StoreCard

end Cheshire.SpiSdcard
