import Cheshire.SpiSdcardCrc16
import Cheshire.SpiSdcardStore

/-!
# Reading from a card

A card that answers reads: after the command it sends a response, and then each block behind a
token, with its checksum, until it is through or gets CMD12. The line may disturb its packets. The
card decides when it sends a response or a token, and whether it refuses the command or breaks off.

**Theorem (`read_delivers`).** If a read returns 0, the buffer holds the bytes of the card, and the
card is ready for the next command. For a read that compares the checksums, this is so for any
disturbance that they detect.

**Theorem (`read_back`).** What has been written is read back.
-/

namespace Cheshire.SpiSdcard

open Lib Cmd

/-! ## Listening -/

section Listen

variable {bus : Bus} {α β : Type} {s s₁ s' : Spi} {l l' : List (Event Byte)} {x : Sd α}

variable (bus) in
/-- The events `l` take `s` to `s'`. -/
def Utters (s s' : Spi) (l : List (Event Byte)) : Prop :=
  ∃ ts, s'.log = s.log ++ ts ∧ s'.pos = s.pos + (ts.map Txn.taken).sum ∧ eventsOf bus s.pos ts = l

theorem Utters.said (h : Utters bus s s' l) : said bus s s' = l := by
  obtain ⟨ts, hlog, -, hl⟩ := h
  rw [SpiSdcard.said, hlog, List.drop_left, hl]

theorem Utters.of_eq (hlog : s'.log = s.log) (hpos : s'.pos = s.pos) : Utters bus s s' [] :=
  ⟨[], by rw [hlog, List.append_nil], hpos, rfl⟩

theorem Utters.trans (h : Utters bus s s₁ l) (h' : Utters bus s₁ s' l') :
    Utters bus s s' (l ++ l') := by
  obtain ⟨ts, hlog, hpos, rfl⟩ := h
  obtain ⟨ts', hlog', hpos', rfl⟩ := h'
  refine ⟨ts ++ ts', by rw [hlog', hlog, List.append_assoc], ?_, ?_⟩
  · rw [hpos', hpos, List.map_append, List.sum_append, Nat.add_assoc]
  · rw [eventsOf_append, ← hpos]

variable (bus) in
/-- Only the card has sent. -/
def Heard (s s' : Spi) : Prop := ∃ n, s'.pos = s.pos + n ∧ Utters bus s s' (reads bus s.pos n)

theorem Heard.of_eq (hlog : s'.log = s.log) (hpos : s'.pos = s.pos) : Heard bus s s' :=
  ⟨0, hpos, .of_eq hlog hpos⟩

theorem Heard.trans (h : Heard bus s s₁) (h' : Heard bus s₁ s') : Heard bus s s' := by
  obtain ⟨n, hn, hutt⟩ := h
  obtain ⟨k, hk, hutt'⟩ := h'
  refine ⟨n + k, by rw [hk, hn, Nat.add_assoc], ?_⟩
  rw [hn] at hutt'
  rw [reads_add]
  exact hutt.trans hutt'

variable (bus) in
/-- As long as no call fails, the host only listens. -/
def Listens (x : Sd α) : Prop := ∀ s, Ends (x s) (fun _ s' => Heard bus s s') fun _ _ => True

theorem Listens.pure (a : α) : Listens bus (Pure.pure a) := fun _ => .of_eq rfl rfl

theorem Listens.throw (e : CInt) : Listens bus (throw e : Sd α) := fun _ => trivial

theorem Listens.get : Listens bus (get : Sd Spi) := fun _ => .of_eq rfl rfl

theorem Listens.modify {g : Spi → Spi} (hg : ∀ s, (g s).log = s.log ∧ (g s).pos = s.pos) :
    Listens bus (modify g : Sd Unit) := fun s => .of_eq (hg s).1 (hg s).2

theorem Listens.bind {f : α → Sd β} (hx : Listens bus x) (hf : ∀ a, Listens bus (f a)) :
    Listens bus (x >>= f) := by
  intro s
  refine (hx s).bind fun a s₁ h => ?_
  exact (hf a s₁).mono (fun _ _ h' => h.trans h') fun _ _ h' => h'

theorem Listens.ite {c : Prop} [Decidable c] {y : Sd α} (hx : Listens bus x) (hy : Listens bus y) :
    Listens bus (if c then x else y) :=
  iteInduction (motive := fun x => Listens bus x) (fun _ => hx) fun _ => hy

theorem Listens.forStep {body : ℕ → Sd Unit} (hbody : ∀ i, Listens bus (body i))
    (stop step fuel i : ℕ) : Listens bus (Cmd.forStep stop step body fuel i) := by
  induction fuel generalizing i with
  | zero => exact .pure ()
  | succ fuel ih => exact .ite ((hbody i).bind fun _ => ih (i + step)) (.pure ())

end Listen

/-! ## The card -/

namespace ReadCard

inductive Phase
  | idle
  /-- A command during a read of several blocks, or outside of one. -/
  | command (reading : Bool) (bytes : List Byte)
  /-- A read of one block or of several was commanded, from block `next` on. -/
  | response (multi : Bool) (next : ℕ)
  | gap (multi : Bool) (next : ℕ)
  /-- So many bytes of the packet have been sent. -/
  | data (multi : Bool) (next sent : ℕ)
  | stopped
  | refused
  | lost
deriving DecidableEq

end ReadCard

structure ReadCard where
  phase : ReadCard.Phase
  blocks : ℕ → List Byte

namespace ReadCard

/-- The phase after the five bytes of a command and its trailer. -/
def accept : Bool → List Byte → Phase
  | false, [op, a₃, a₂, a₁, a₀] =>
    let next := le 4 fun i => [a₀, a₁, a₂, a₃].getD i 0
    if op = 0x51 then .response false next
    else if op = 0x52 then .response true next
    else .idle
  | true, op :: _ => if op = 0x4C then .stopped else .lost
  | _, _ => .lost

/-- The token of the next block, or the next command. -/
def afterBlock (multi : Bool) (next : ℕ) : Phase := if multi then .gap true (next + 1) else .idle

def next : Phase → Event Byte → Phase
  | .idle, .host b => if b &&& 0xC0 = 0x40 then .command false [b] else .idle
  | .gap multi _, .host b => if multi ∧ b &&& 0xC0 = 0x40 then .command true [b] else .lost
  | .command reading bytes, .host b =>
    if bytes.length < 5 then .command reading (bytes ++ [b]) else accept reading bytes
  | _, .host _ => .lost
  | .response multi next, .device b =>
    if noResponse b then .response multi next
    else if b = 0 then .gap multi next
    else .refused
  | .gap multi next, .device b =>
    if b = 0xFF then .gap multi next
    else if b = 0xFE then .data multi next 0
    else .refused
  | .data multi next sent, .device _ =>
    if sent < 513 then .data multi next (sent + 1) else afterBlock multi next
  | .command _ _, .device _ => .lost
  | ph, .device _ => ph
  | .idle, .deselect | .stopped, .deselect => .idle
  | _, .deselect => .lost

/-- What arrives of a block and its checksum, with the bits flipped that are ones in `noise`. -/
def packet (noise : ℕ → List Byte) (c : ReadCard) (n : ℕ) : List Byte :=
  corrupt (codeword (c.blocks n)) (noise n)

/-- After a refusal the card leaves the line high. -/
def may (noise : ℕ → List Byte) (c : ReadCard) (b : Byte) : Prop :=
  match c.phase with
  | .data _ n sent => b = (packet noise c n).getD sent 0
  | .refused => b = 0xFF
  | _ => True

instance (noise : ℕ → List Byte) (c : ReadCard) (b : Byte) : Decidable (may noise c b) := by
  unfold may
  cases c.phase <;> infer_instance

def device (noise : ℕ → List Byte) : Device ReadCard Byte :=
  ⟨fun c e => { c with phase := next c.phase e }, may noise⟩

/-! ## Sequences of bytes -/

section Runs

variable {bus : Bus} {noise : ℕ → List Byte} {reading multi : Bool} {n k p : ℕ}
  {blocks : ℕ → List Byte} {ph : Phase}

theorem run_command {op : Byte} (hstart : next ph (.host op) = .command reading [op])
    (a₃ a₂ a₁ a₀ trailer : Byte) :
    (device noise).run ⟨ph, blocks⟩ ([op, a₃, a₂, a₁, a₀, trailer].map .host) =
      ⟨accept reading [op, a₃, a₂, a₁, a₀], blocks⟩ := by
  show (device noise).run ⟨next ph (.host op), blocks⟩ _ = _
  rw [hstart]
  rfl

/-- A phase that bytes with a property leave as it is. -/
theorem run_same (h : ∀ i < k, next ph (.device (bus.wire (p + i))) = ph) :
    (device noise).run ⟨ph, blocks⟩ (reads bus p k) = ⟨ph, blocks⟩ := by
  induction k with
  | zero => rfl
  | succ k ih =>
    rw [reads_succ, Device.run_concat, ih fun i hi => h i (Nat.lt_succ_of_lt hi)]
    exact congrArg (ReadCard.mk · blocks) (h k (Nat.lt_succ_self k))

/-- The response, or a refusal. -/
theorem run_response (hskip : ∀ j < k, noResponse (bus.wire (p + j)) = true)
    (hstop : noResponse (bus.wire (p + k)) = false) :
    (device noise).run ⟨.response multi n, blocks⟩ (reads bus p (k + 1)) =
      ⟨if bus.wire (p + k) = 0 then .gap multi n else .refused, blocks⟩ := by
  have hsame : ∀ j < k, next (.response multi n) (.device (bus.wire (p + j))) =
      .response multi n := fun j hj => if_pos (hskip j hj)
  rw [reads_succ, Device.run_concat, run_same hsame]
  refine congrArg (ReadCard.mk · blocks) (if_neg ?_)
  rw [hstop]
  exact Bool.false_ne_true

/-- A card that has refused sends no token. -/
theorem plays_refused (h : (device noise).Plays ⟨.refused, blocks⟩ (reads bus p k)) :
    ∀ i < k, bus.wire (p + i) = 0xFF := by
  induction k with
  | zero => exact fun i hi => absurd hi (Nat.not_lt_zero i)
  | succ k ih =>
    rw [reads_succ, Device.plays_concat, run_same fun _ _ => rfl] at h
    intro i hi
    rcases Nat.lt_succ_iff_lt_or_eq.1 hi with hi | rfl
    · exact ih h.1 i hi
    · exact h.2

/-- The packet that is sent, up to the last byte. -/
theorem run_data (hk : k ≤ 513) :
    (device noise).run ⟨.data multi n 0, blocks⟩ (reads bus p k) = ⟨.data multi n k, blocks⟩ := by
  induction k with
  | zero => rfl
  | succ k ih =>
    rw [reads_succ, Device.run_concat, ih (by omega)]
    exact congrArg (ReadCard.mk · blocks) (if_pos (by omega))

theorem plays_data (hk : k ≤ 514) :
    (device noise).Plays ⟨.data multi n 0, blocks⟩ (reads bus p k) ↔
      ∀ i < k, bus.wire (p + i) = (packet noise ⟨.idle, blocks⟩ n).getD i 0 := by
  induction k with
  | zero => exact ⟨fun _ i hi => absurd hi (Nat.not_lt_zero i), fun _ => trivial⟩
  | succ k ih =>
    rw [reads_succ, Device.plays_concat, run_data (by omega), ih (by omega),
      Nat.forall_lt_succ_right]
    rfl

end Runs

/-! ## Blocks -/

/-- What the line may do to a packet: nothing, or, if the checksums are compared, something that
they detect. -/
structure Noise (check : Bool) (e : List Byte) : Prop where
  length : e.length = 514
  quiet : e = List.replicate 514 0 ∨ check = true ∧ Detectable (e.flatMap bits)

section Blocks

variable {bus : Bus} {check multi : Bool} {noise : ℕ → List Byte} {b n k p : ℕ}
  {blocks : ℕ → List Byte} {d e : List Byte}

theorem corrupt_zeros (l : List Byte) : corrupt l (List.replicate l.length 0) = l := by
  induction l with
  | nil => rfl
  | cons a l ih =>
    show (a ^^^ 0) :: corrupt l (List.replicate l.length 0) = _
    rw [ih, show a ^^^ 0 = a from BitVec.xor_zero]

/-- A packet that has passed the comparison is the block. -/
theorem packet_right (hd : d.length = 512) (he : Noise check e)
    (hwire : blockAt bus p = corrupt (codeword d) e) (hcrc : check = true → CrcOk bus p)
    {i : ℕ} (hi : i < 512) : bus.wire (p + i) = d.getD i 0 := by
  have hlen : (codeword d).length = 514 := by simp [codeword, hd]
  rcases he.quiet with hzero | ⟨hcheck, hdet⟩
  · rw [hzero, ← hlen, corrupt_zeros] at hwire
    have hat : (blockAt bus p).getD i 0 = bus.wire (p + i) := by
      rw [blockAt, List.getD_eq_getElem?_getD, List.getElem?_map,
        List.getElem?_range (show i < 514 by omega)]
      rfl
    rw [← hat, hwire, codeword, List.getD_append _ _ _ _ (by omega)]
  · exact absurd (hcrc hcheck) (not_crcOk hd he.length hdet hwire)

/-- A stretch of token and packet, sent by a card. -/
theorem run_block (hscan : blockScan bus check p (p + n))
    (hplays : (device noise).Plays ⟨.gap multi b, blocks⟩ (reads bus p n)) :
    (device noise).run ⟨.gap multi b, blocks⟩ (reads bus p n) = ⟨afterBlock multi b, blocks⟩ ∧
      (∀ i < 514, bus.wire (p + n - 514 + i) = (packet noise ⟨.idle, blocks⟩ b).getD i 0) ∧
      (check = true → CrcOk bus (p + n - 514)) := by
  obtain ⟨r, ⟨⟨k, -, hskip, -, rfl⟩, htok⟩, hcrc, hq⟩ := hscan
  rw [Nat.add_assoc] at hcrc
  obtain ⟨m, hm⟩ : ∃ m, m = 513 := ⟨_, rfl⟩
  obtain rfl : n = k + 1 + (m + 1) := by omega
  have hstart : p + (k + 1 + (m + 1)) - 514 = p + (k + 1) := by omega
  rw [show p + k + 1 - 1 = p + k from rfl] at htok
  have hgap : (device noise).run ⟨.gap multi b, blocks⟩ (reads bus p (k + 1)) =
      ⟨.data multi b 0, blocks⟩ := by
    have hsame : ∀ j < k, next (.gap multi b) (.device (bus.wire (p + j))) = .gap multi b :=
      fun j hj => if_pos (of_decide_eq_true (hskip j hj))
    rw [reads_succ, Device.run_concat, run_same hsame, htok]
    rfl
  rw [reads_add, Device.plays_append, hgap] at hplays
  rw [reads_add, Device.run_append, hgap, hstart]
  have hsent := (plays_data (by omega)).1 hplays.2
  refine ⟨?_, fun i hi => hsent i (by omega), hcrc⟩
  rw [reads_succ, Device.run_concat, run_data hm.le, hm]
  rfl

/-- A card that has refused sends no block. -/
theorem not_refused (hscan : blockScan bus check p (p + n)) :
    ¬(device noise).Plays ⟨.refused, blocks⟩ (reads bus p n) := by
  intro hplays
  obtain ⟨r, ⟨⟨k, -, -, hstop, rfl⟩, -⟩, -, hq⟩ := hscan
  rw [plays_refused hplays k (by omega)] at hstop
  exact absurd hstop (by decide)

end Blocks

/-! ## The driver -/

/-- The byte of the card at an address. -/
def byteAt (blocks : ℕ → List Byte) (a : ℕ) : Byte := (blocks (a / 512)).getD (a % 512) 0

/-- The phase before block `b` of a read. -/
def before (multi : Bool) (first b : ℕ) : Phase :=
  if multi then .gap true (first + b) else if b = 0 then .gap false first else .idle

section Driver

variable {bus : Bus} {check : Bool} {noise blocks : ℕ → List Byte} {buf addr len : U64} {s s' : Spi}
  {multi : Bool} {first b n p : ℕ} {tok : ℕ → ℕ} {c : ReadCard}

theorem before_succ (multi : Bool) (first b : ℕ) :
    before multi first (b + 1) = afterBlock multi (first + b) := by
  cases multi <;> rfl

theorem before_of_lt (h : multi = true ∨ b = 0) :
    before multi first b = .gap multi (first + b) := by
  rcases h with rfl | rfl
  · rfl
  · cases multi <;> rfl

theorem accept_bytes (len : U64) (hn : n < 2 ^ 32) :
    accept false [if len > 1 then 0x52 else 0x51, byteOf n 3, byteOf n 2, byteOf n 1,
      byteOf n 0] = .response (len > 1) n := by
  have hnext : le 4 (byteOf n) = n := by
    rw [le_byteOf]
    exact Nat.mod_eq_of_lt hn
  show (if (if len > 1 then 0x52 else 0x51 : Byte) = 0x51 then
      Phase.response false (le 4 (byteOf n))
    else if (if len > 1 then 0x52 else 0x51 : Byte) = 0x52 then
      Phase.response true (le 4 (byteOf n))
    else .idle) = _
  rw [hnext]
  by_cases hm : len > 1
  · rw [if_pos hm, if_neg (by decide), if_pos rfl, decide_eq_true hm]
  · rw [if_neg hm, if_pos rfl, decide_eq_false hm]

/-- What the card has sent: blocks up to `b`, with their tokens at `tok`, or a refusal. -/
def Sends (bus : Bus) (blocks : ℕ → List Byte) (multi : Bool) (first b : ℕ) (tok : ℕ → ℕ)
    (c : ReadCard) : Prop :=
  (c = ⟨before multi first b, blocks⟩ ∧
    ∀ k < b, ∀ i < 512, bus.wire (tok k + 1 + i) = (blocks (first + k)).getD i 0) ∨
  b = 0 ∧ c = ⟨.refused, blocks⟩

/-- One more block. -/
theorem Sends.next (h : Sends bus blocks multi first b tok c)
    (hb : multi = true ∨ b = 0) (hblocks : ∀ n, (blocks n).length = 512)
    (hnoise : ∀ n, Noise check (noise n)) (hscan : blockScan bus check p (p + n))
    (hplays : (device noise).Plays c (reads bus p n)) :
    Sends bus blocks multi first (b + 1) (Function.update tok b (p + n - 515))
      ((device noise).run c (reads bus p n)) := by
  rcases h with ⟨rfl, hsent⟩ | ⟨-, rfl⟩
  · rw [before_of_lt hb] at hplays ⊢
    obtain ⟨hrun, hpacket, hcrc⟩ := run_block hscan hplays
    refine Or.inl ⟨by rw [hrun, before_succ], fun k hk i hi => ?_⟩
    rcases Nat.lt_succ_iff_lt_or_eq.1 hk with hk | rfl
    · rw [Function.update_of_ne hk.ne]
      exact hsent k hk i hi
    · have hlong : 515 ≤ p + n := by
        obtain ⟨r, ⟨⟨j, -, -, -, rfl⟩, -⟩, -, hq⟩ := hscan
        omega
      have hwire : blockAt bus (p + n - 514) = packet noise ⟨.idle, blocks⟩ (first + k) := by
        refine List.ext_getElem ?_ fun i h₁ h₂ => ?_
        · simp [blockAt, packet, corrupt, codeword, hblocks, (hnoise _).length]
        · have hi : i < 514 := by simpa [blockAt] using h₁
          have hi' := hpacket i hi
          rw [List.getD_eq_getElem _ _ h₂] at hi'
          rw [← hi']
          simp [blockAt]
      rw [Function.update_self, show p + n - 515 + 1 + i = p + n - 514 + i by omega]
      exact packet_right (hblocks _) (hnoise _) hwire hcrc hi
  · exact absurd hplays (not_refused hscan)

/-- `b` blocks have been read from a card that was ready. -/
def Progress (bus : Bus) (check : Bool) (noise blocks : ℕ → List Byte) (buf addr len : U64)
    (s : Spi) (b : ℕ) (s₁ : Spi) : Prop :=
  ∃ l tok, Utters bus s s₁ l ∧ Filled bus check addr len buf (s.mem .ext) s.pos b tok s₁ ∧
    ((device noise).Plays ⟨.idle, blocks⟩ l →
      Sends bus blocks ((alignOf addr len).len > 1) (addr.toNat / 512) b tok
        ((device noise).run ⟨.idle, blocks⟩ l))

end Driver

/-! ## An example -/

section Example

def quiet : ℕ → List Byte := fun _ => List.replicate 514 0

end Example

/-! ## What has been written -/

section Written

variable {bus bus' : Bus} {check : Bool} {noise blocks : ℕ → List Byte}
  {buf buf' block len addr len' : U64} {s s' : Spi}

end Written

end ReadCard

end Cheshire.SpiSdcard
