import Cheshire.Lib.Device
import Cheshire.SpiSdcardPoll
import Cheshire.SpiSdcardRelease

/-!
# What the card sees of the driver

On the line to the card, the host sends the bytes of its transmissions, the card those of the
receptions, and a transaction that does not keep CS asserted deselects the card (`eventsOf`).
`Talks bus s s' l` says that the events `l` have taken `s` to `s'`.

Each part of a write comes with what it makes happen on the line. `Meets` puts this together with
a card that follows the events: it is a triple about the state of the driver and that of the card,
for the runs in which the card only sends what it may.
-/

namespace Cheshire.SpiSdcard

open Lib Cmd

/-! ## The line -/

section Line

variable (bus : Bus)

/-- How many bytes of the wire a transaction takes. -/
def Txn.taken (t : Txn) : ℕ :=
  match t.seg with
  | .rx _ n => n
  | _ => 0

/-- What the card sends at the positions from `p` on. -/
def reads (p n : ℕ) : List (Event Byte) := (List.range n).map fun i => .device (bus.wire (p + i))

/-- A transaction at position `p` of the wire, as the card sees it. -/
def Txn.events (p : ℕ) (t : Txn) : List (Event Byte) :=
  (match t.cs, t.seg with
  | .card, .tx bytes => bytes.map .host
  | .card, .rx _ n => reads bus p n
  | _, _ => []) ++ if t.cs = .card ∧ t.csaat then [] else [.deselect]

def eventsOf : ℕ → List Txn → List (Event Byte)
  | _, [] => []
  | p, t :: l => t.events bus p ++ eventsOf (p + t.taken) l

/-- The events between two states. -/
def said (s s' : Spi) : List (Event Byte) := eventsOf bus s.pos (s'.log.drop s.log.length)

variable {bus} {s s₁ s' : Spi} {l l' : List (Event Byte)}

theorem eventsOf_append (p : ℕ) (l l' : List Txn) : eventsOf bus p (l ++ l') =
    eventsOf bus p l ++ eventsOf bus (p + (l.map Txn.taken).sum) l' := by
  induction l generalizing p with
  | nil => rfl
  | cons t l ih =>
    rw [List.cons_append, eventsOf, eventsOf, ih, List.append_assoc, List.map_cons, List.sum_cons,
      Nat.add_assoc]

theorem reads_succ (p n : ℕ) :
    reads bus p (n + 1) = reads bus p n ++ [.device (bus.wire (p + n))] := by
  simp [reads, List.range_succ]

theorem reads_add (p n k : ℕ) : reads bus p (n + k) = reads bus p n ++ reads bus (p + n) k := by
  simp [reads, List.range_add, Nat.add_assoc]

variable (bus) in
/-- The events `l` take `s` to `s'`, and the memory of the caller stays as it is. -/
structure Talks (s s' : Spi) (l : List (Event Byte)) : Prop where
  ext : s'.mem .ext = s.mem .ext
  log : ∃ ts, s'.log = s.log ++ ts ∧ s'.pos = s.pos + (ts.map Txn.taken).sum ∧
    eventsOf bus s.pos ts = l

theorem Talks.said (h : Talks bus s s' l) : said bus s s' = l := by
  obtain ⟨-, ts, hlog, -, hl⟩ := h
  rw [SpiSdcard.said, hlog, List.drop_left, hl]

theorem Talks.of_eq (hext : s'.mem .ext = s.mem .ext) (hlog : s'.log = s.log)
    (hpos : s'.pos = s.pos) : Talks bus s s' [] :=
  ⟨hext, [], by rw [hlog, List.append_nil], hpos, rfl⟩

/-- A store to an object of the driver is not seen. -/
theorem Talks.store (s : Spi) {p : Ptr} (hp : p.1 ≠ .ext) (n : ℕ) (f : ℕ → Byte) :
    Talks bus s (s.store p n f) [] :=
  .of_eq (mem_store_of_ne s n f hp.symm) rfl rfl

theorem Talks.refl (s : Spi) : Talks bus s s [] := .of_eq rfl rfl rfl

theorem Talks.trans (h : Talks bus s s₁ l) (h' : Talks bus s₁ s' l') :
    Talks bus s s' (l ++ l') := by
  obtain ⟨hext, ts, hlog, hpos, rfl⟩ := h
  obtain ⟨hext', ts', hlog', hpos', rfl⟩ := h'
  refine ⟨hext'.trans hext, ts ++ ts', by rw [hlog', hlog, List.append_assoc], ?_, ?_⟩
  · rw [hpos', hpos, List.map_append, List.sum_append, Nat.add_assoc]
  · rw [eventsOf_append, ← hpos]

/-- One transaction. -/
theorem Talks.single {t : Txn} (hext : s'.mem .ext = s.mem .ext) (hlog : s'.log = s.log ++ [t])
    (hpos : s'.pos = s.pos + t.taken) : Talks bus s s' (t.events bus s.pos) := by
  refine ⟨hext, [t], hlog, ?_, ?_⟩
  · rw [hpos]
    rfl
  · exact List.append_nil _

end Line

/-! ## Parts of the driver -/

section Parts

variable {bus : Bus} {dst src : Ptr} {n : ℕ} {again : Byte → Bool}

theorem transaction_talks {t : Txn} (ht : ∀ dst n, t.seg ≠ .rx dst n) (s : Spi) :
    Ends (transaction bus t s) (fun _ s' => s'.mem = s.mem ∧ Talks bus s s' (t.events bus s.pos))
      (fun e _ => CallFailed bus e) := by
  refine (transaction_other ht s).mono ?_ fun _ _ h => h.1
  intro _ s' h
  obtain ⟨hmem, hpos, hlog⟩ := h
  have htaken : t.taken = 0 := by
    unfold Txn.taken
    cases hseg : t.seg with
    | rx dst n => exact absurd hseg (ht dst n)
    | _ => rfl
  exact ⟨hmem, Talks.single (congrFun hmem .ext) hlog (by rw [hpos, htaken, Nat.add_zero])⟩

theorem transmit_talks (src : Ptr) (n : ℕ) (s : Spi) :
    Ends (xferCsaat bus none (some src) n s)
      (fun _ s' => s'.mem = s.mem ∧ Talks bus s s' ((s.bytes src n).map .host))
      (fun e _ => CallFailed bus e) := by
  show Ends (transaction bus ⟨.card, true, .tx (s.bytes src n)⟩ s) _ _
  refine (transaction_talks (fun _ _ => Segment.noConfusion) s).mono ?_ fun _ _ h => h
  intro _ s' h
  obtain ⟨hmem, htalks⟩ := h
  exact ⟨hmem, List.append_nil ((s.bytes src n).map Event.host) ▸ htalks⟩

theorem receive_talks (hdst : dst.1 ≠ .ext) (hn : n ≤ 2 ^ 64) (s : Spi) :
    Ends (xferCsaat bus (some dst) none n s)
      (fun _ s' => s'.pos = s.pos + n ∧ (∀ i < n, s'.load dst i = bus.wire (s.pos + i)) ∧
        Talks bus s s' (reads bus s.pos n))
      (fun e _ => CallFailed bus e) := by
  refine (transaction_rx .card true dst n s).mono ?_ fun _ _ h => h.1
  intro _ s' h
  obtain ⟨hmem, hpos, hlog⟩ := h
  have hext : s'.mem .ext = s.mem .ext := by
    rw [hmem, mem_store_of_ne s n _ hdst.symm]
  refine ⟨hpos, fun i hi => ?_, ?_⟩
  · rw [load_congr hmem, load_store s dst _ hi hn]
  · have htalks : Talks bus s s' _ := Talks.single hext hlog hpos
    exact List.append_nil (reads bus s.pos n) ▸ htalks

theorem csfree_talks (s : Spi) :
    Ends (csfree bus s) (fun _ s' => Talks bus s s' [.deselect]) (fun e _ => CallFailed bus e) :=
  (transaction_talks (fun _ _ => Segment.noConfusion) s).mono (fun _ _ h => h.2) fun _ _ h => h

theorem dummy_talks (s : Spi) :
    Ends (xferCsaat bus none none n s) (fun _ s' => Talks bus s s' [])
      (fun e _ => CallFailed bus e) :=
  (transaction_talks (fun _ _ => Segment.noConfusion) s).mono (fun _ _ h => h.2) fun _ _ h => h

theorem pollLoop_talks (hdst : dst.1 ≠ .ext) (timeout : ℕ) (s : Spi) :
    Ends (pollLoop bus dst again timeout s)
      (fun t s' => ∃ n, t + n = timeout ∧ Talks bus s s' (reads bus s.pos n) ∧
        (∀ j, j + 1 < n → again (bus.wire (s.pos + j)) = true) ∧
        (t ≠ 0 → ∃ k, n = k + 1 ∧ again (bus.wire (s.pos + k)) = false))
      (fun e _ => CallFailed bus e) := by
  refine (pollLoop_rule (s := s) (p := s.pos) (I := fun n s' => s'.pos = s.pos + n ∧
    Talks bus s s' (reads bus s.pos n)) ?_ timeout ⟨rfl, .refl s⟩).mono ?_ fun _ _ h => h
  · rintro n s₁ ⟨hpos, htalks⟩
    refine (receive_talks hdst (by decide) s₁).mono ?_ fun _ _ h => h
    intro _ s' h
    obtain ⟨hpos', hload, htalks'⟩ := h
    rw [hpos] at hpos' htalks' hload
    refine ⟨⟨hpos', ?_⟩, hload 0 Nat.one_pos⟩
    rw [reads_add]
    exact htalks.trans htalks'
  · intro t s' h
    obtain ⟨n, hn, ⟨-, htalks⟩, hskip, hstop⟩ := h
    exact ⟨n, hn, htalks, hskip, hstop⟩

/-- A poll that succeeds stops at the first byte that is accepted, and one that fails has used up
its limit. -/
theorem poll_talks (hdst : dst.1 ≠ .ext) {timeout : ℕ} (ht : timeout ≠ 0) (code : CInt) (s : Spi) :
    Ends (poll bus timeout dst again code s)
      (fun _ s' => ∃ k, Talks bus s s' (reads bus s.pos (k + 1)) ∧ k + 1 < timeout ∧
        (∀ j < k, again (bus.wire (s.pos + j)) = true) ∧ again (bus.wire (s.pos + k)) = false)
      (fun e s' => CallFailed bus e ∨ e = code ∧ Talks bus s s' (reads bus s.pos timeout) ∧
        ∀ j, j + 1 < timeout → again (bus.wire (s.pos + j)) = true) := by
  refine ((pollLoop_talks hdst timeout s).mono (fun _ _ h => h) fun _ _ h => Or.inl h).bind ?_
  intro t s' h
  obtain ⟨n, hn, htalks, hskip, hstop⟩ := h
  by_cases h0 : t = 0
  · rw [if_pos h0]
    obtain rfl : n = timeout := by omega
    exact Or.inr ⟨rfl, htalks, hskip⟩
  · rw [if_neg h0]
    obtain ⟨k, rfl, hk⟩ := hstop h0
    exact ⟨k, htalks, by omega, fun j hj => hskip j (by omega), hk⟩

theorem sendCmd_talks (cmd : U64) (s : Spi) :
    Ends (sendCmd bus cmd s)
      (fun _ s' => Talks bus s s'
        (((List.range (if cmd = 0xFD then 1 else 6)).map (byteOf cmd.toNat)).map .host))
      (fun e _ => CallFailed bus e) := by
  refine Ends.mono (transmit_talks (.cmd, 0) (if cmd = 0xFD then 1 else 6)
    (s.store (.cmd, 0) 8 (byteOf cmd.toNat))) ?_ fun _ _ h => h
  intro _ s' h
  obtain ⟨-, htalks⟩ := h
  rw [cmd_bytes_store] at htalks
  exact (Talks.store s (by decide) 8 (byteOf cmd.toNat)).trans htalks

/-- The block that is sent, and its checksum. -/
def blockOf (m : Mem) (a : U64) : List Byte :=
  (List.range 512).map fun i => m (a + BitVec.ofNat 64 i)

/-- What `sendBlock` sends. -/
def packetOf (tok : Byte) (computeCrc : Bool) (d : List Byte) : List Byte :=
  tok :: (d ++ (List.range 2).map
    (byteOf (if computeCrc then crc16 d else 0).toNat))

theorem transmitChunks_talks (hdepth : 1 ≤ bus.rxDepth) (a : U64) (s : Spi) :
    Ends (forChunks bus (fun offs n => xferCsaat bus none (some (Ptr.add (.ext, a) offs)) n) s)
      (fun _ s' => Talks bus s s' ((blockOf (s.mem .ext) a).map .host))
      (fun e _ => CallFailed bus e) := by
  refine forChunks_ends (I := fun offs s' => Talks bus s s'
    (((List.range offs).map fun i => s.mem .ext (a + BitVec.ofNat 64 i)).map .host)) hdepth ?_
    (.refl s)
  intro offs n _ _ s₁ h
  refine (transmit_talks (Ptr.add (.ext, a) offs) n s₁).mono ?_ fun _ _ h => h
  intro _ s' h'
  obtain ⟨-, htalks⟩ := h'
  have hbytes : s₁.bytes (Ptr.add (.ext, a) offs) n =
      (List.range n).map fun i => s.mem .ext (a + BitVec.ofNat 64 (offs + i)) := by
    refine List.map_congr_left fun i _ => ?_
    show s₁.mem .ext (a + BitVec.ofNat 64 offs + BitVec.ofNat 64 i) = _
    rw [h.ext, BitVec.ofNat_add, BitVec.add_assoc]
  rw [hbytes] at htalks
  have hsplit : ((List.range (offs + n)).map fun i => s.mem .ext (a + BitVec.ofNat 64 i)) =
      ((List.range offs).map fun i => s.mem .ext (a + BitVec.ofNat 64 i)) ++
        (List.range n).map fun i => s.mem .ext (a + BitVec.ofNat 64 (offs + i)) := by
    rw [List.range_add, List.map_append, List.map_map]
    rfl
  rw [hsplit, List.map_append]
  exact h.trans htalks

theorem sendBlock_talks (hdepth : 1 ≤ bus.rxDepth) (a : U64) (tok : Byte) (computeCrc : Bool)
    (s : Spi) :
    Ends (sendBlock bus (.ext, a) tok computeCrc s)
      (fun _ s' => Talks bus s s'
        ((packetOf tok computeCrc (blockOf (s.mem .ext) a)).map .host))
      (fun e _ => CallFailed bus e) := by
  have htok : (s.store (.tok, 0) 1 fun _ => tok).bytes (.tok, 0) 1 = [tok] :=
    bytes_store s (.tok, 0) (fun _ => tok) le_rfl (by decide)
  have hstart : Talks bus s (s.store (.tok, 0) 1 fun _ => tok) [] := .store s (by decide) 1 _
  have hmodify {f : Spi → Spi} {s : Spi} :
      Ends ((modify f : Sd Unit) s) (fun _ s' => s' = f s) (fun e _ => CallFailed bus e) := rfl
  refine hmodify.bind ?_
  rintro _ _ rfl
  refine Ends.bind (transmit_talks (.tok, 0) 1 (s.store (.tok, 0) 1 fun _ => tok)) ?_
  intro _ s₁ h
  obtain ⟨-, htalks₁⟩ := h
  rw [htok] at htalks₁
  have htalks₁ := hstart.trans htalks₁
  refine Ends.bind (transmitChunks_talks hdepth a s₁) ?_
  intro _ s₂ htalks₂
  have htalks₂ := htalks₁.trans htalks₂
  rw [htalks₁.ext] at htalks₂
  generalize hcrc : (if computeCrc then crc16 (s₂.bytes (.ext, a) 512) else 0) = crc
  have hblock : s₂.bytes (.ext, a) 512 = blockOf (s.mem .ext) a := by
    unfold Spi.bytes blockOf Spi.load
    rw [htalks₂.ext]
  refine hmodify.bind ?_
  rintro _ _ rfl
  rw [hcrc]
  have hbytes := bytes_store s₂ (.crc, 0) (byteOf crc.toNat) (le_refl 2) (by decide)
  have hstore : Talks bus s₂ (s₂.store (.crc, 0) 2 (byteOf crc.toNat)) [] :=
    .store s₂ (by decide) 2 _
  refine (transmit_talks (.crc, 0) 2 (s₂.store (.crc, 0) 2 (byteOf crc.toNat))).mono ?_
    fun _ _ h => h
  intro _ s₃ h
  obtain ⟨-, htalks₃⟩ := h
  rw [hbytes] at htalks₃
  rw [hblock] at hcrc
  have hall := htalks₂.trans (hstore.trans htalks₃)
  rw [packetOf, hcrc, List.map_cons, List.map_append]
  simpa using hall

/-- The data response. -/
theorem awaitAccepted_talks (s : Spi) :
    Ends (awaitAccepted bus s)
      (fun _ s' => Talks bus s s' (reads bus s.pos 1) ∧ bus.wire s.pos &&& 0x1F = 0x05)
      (fun e s' => CallFailed bus e ∨ e ≠ 0 ∧ Talks bus s s' (reads bus s.pos 1) ∧
        bus.wire s.pos &&& 0x1F ≠ 0x05) := by
  refine ((@receive_talks bus (.rx, 0) 1 (by decide) (by decide) s).mono
    (fun _ _ h => h) fun _ _ h => Or.inl h).bind ?_
  intro _ s₁ h
  obtain ⟨-, hload, htalks⟩ := h
  show Ends ((if s₁.load (.rx, 0) 0 &&& 0x1F ≠ 0x05 then throw 0x22 else pure () : Sd Unit) s₁) _ _
  rw [hload 0 Nat.one_pos, Nat.add_zero]
  by_cases hacc : bus.wire s.pos &&& 0x1F = 0x05
  · rw [if_neg (not_not.2 hacc)]
    exact ⟨htalks, hacc⟩
  · rw [if_pos hacc]
    exact Or.inr ⟨by decide, htalks, hacc⟩

end Parts

/-! ## The driver and the card -/

section Meets

variable {γ : Type} {bus : Bus} {D : Device γ Byte} {m : Mem} {P Q R : γ → Prop}
  {E : CInt → γ → Prop} {x y : Sd Unit}

variable (bus D m) in
/-- From a card with `P`, and as long as it sends what it may, `x` ends with a card with `Q`, or
without a failing call with `E` of its code and the card. The memory of the caller is `m`. -/
def Meets (P : γ → Prop) (x : Sd Unit) (Q : γ → Prop) (E : CInt → γ → Prop) : Prop :=
  ∀ s c, s.mem .ext = m → Ends (x s)
    (fun _ s' => ∃ l, Talks bus s s' l ∧ (P c → D.Plays c l → Q (D.run c l)))
    (fun e s' => CallFailed bus e ∨
      ∃ l, Talks bus s s' l ∧ (P c → D.Plays c l → E e (D.run c l)))

theorem Meets.seq (hx : Meets bus D m P x Q E) (hy : Meets bus D m Q y R E) :
    Meets bus D m P (x >>= fun _ => y) R E := by
  intro s c hm
  refine (hx s c hm).bind ?_
  intro _ s₁ h
  obtain ⟨l, htalks, hQ⟩ := h
  refine (hy s₁ (D.run c l) (htalks.ext.trans hm)).mono ?_ ?_
  · intro _ s' h
    obtain ⟨l', htalks', hR⟩ := h
    refine ⟨l ++ l', htalks.trans htalks', fun hP hplays => ?_⟩
    obtain ⟨hl, hl'⟩ := D.plays_append.1 hplays
    rw [D.run_append]
    exact hR (hQ hP hl) hl'
  · rintro e s' (hfail | h)
    · exact Or.inl hfail
    · obtain ⟨l', htalks', hE⟩ := h
      refine Or.inr ⟨l ++ l', htalks.trans htalks', fun hP hplays => ?_⟩
      obtain ⟨hl, hl'⟩ := D.plays_append.1 hplays
      rw [D.run_append]
      exact hE (hQ hP hl) hl'

theorem Meets.pure : Meets bus D m P (Pure.pure ()) P E :=
  fun s _ _ => ⟨[], .refl s, fun hP _ => hP⟩

theorem Meets.mono {Q' : γ → Prop} (h : Meets bus D m P x Q E) (hQ : ∀ c, Q c → Q' c) :
    Meets bus D m P x Q' E := by
  intro s c hm
  refine (h s c hm).mono ?_ fun _ _ h => h
  intro _ s' h
  obtain ⟨l, htalks, h⟩ := h
  exact ⟨l, htalks, fun hP hplays => hQ _ (h hP hplays)⟩

/-- A loop with an invariant. -/
theorem Meets.forStep {I : ℕ → γ → Prop} {body : ℕ → Sd Unit} {n : ℕ}
    (hbody : ∀ b < n, Meets bus D m (I b) (body b) (I (b + 1)) E) :
    Meets bus D m (I 0) (Cmd.forStep n 1 body n 0) (I n) E := by
  exact Cmd.forStep_induction (R := fun i x => Meets bus D m (I i) x (I n) E) Meets.pure
    fun i hi x hx => (hbody i hi).seq hx

/-- What is known of a part of the driver, applied to a card. -/
theorem Meets.of_talks {A : List (Event Byte) → Prop} {B : CInt → List (Event Byte) → Prop}
    (h : ∀ s, s.mem .ext = m → Ends (x s) (fun _ s' => ∃ l, Talks bus s s' l ∧ A l)
      (fun e s' => CallFailed bus e ∨ ∃ l, Talks bus s s' l ∧ B e l))
    (hA : ∀ l c, A l → P c → D.Plays c l → Q (D.run c l))
    (hB : ∀ e l c, B e l → P c → D.Plays c l → E e (D.run c l)) : Meets bus D m P x Q E := by
  intro s c hm
  refine (h s hm).mono ?_ ?_
  · intro _ s' h
    obtain ⟨l, htalks, ha⟩ := h
    exact ⟨l, htalks, hA l c ha⟩
  · rintro e s' (hfail | h)
    · exact Or.inl hfail
    · obtain ⟨l, htalks, hb⟩ := h
      exact Or.inr ⟨l, htalks, hB e l c hb⟩

/-- A part of the driver that only sends. -/
theorem Meets.of_sent {l : List (Event Byte)}
    (h : ∀ s, s.mem .ext = m → Ends (x s) (fun _ s' => Talks bus s s' l)
      (fun e _ => CallFailed bus e))
    (hA : ∀ c, P c → Q (D.run c l)) : Meets bus D m P x Q E := by
  refine Meets.of_talks (A := fun l' => l' = l) (B := fun _ _ => False) ?_ ?_ ?_
  · intro s hm
    exact (h s hm).mono (fun _ s' h => ⟨l, h, rfl⟩) fun _ _ h => Or.inl h
  · rintro _ c rfl hP -
    exact hA c hP
  · exact fun _ _ _ h => h.elim

/-- A poll: the bytes it reads, all but the last one skipped. -/
theorem poll_meets {dst : Ptr} (hdst : dst.1 ≠ .ext) {timeout : ℕ} (ht : timeout ≠ 0)
    {again : Byte → Bool} {code : CInt}
    (hA : ∀ p k c, k + 1 < timeout → (∀ j < k, again (bus.wire (p + j)) = true) →
      again (bus.wire (p + k)) = false → P c → D.Plays c (reads bus p (k + 1)) →
      Q (D.run c (reads bus p (k + 1))))
    (hB : ∀ p c, (∀ j, j + 1 < timeout → again (bus.wire (p + j)) = true) → P c →
      D.Plays c (reads bus p timeout) → E code (D.run c (reads bus p timeout))) :
    Meets bus D m P (poll bus timeout dst again code) Q E := by
  intro s c hm
  refine (poll_talks hdst ht code s).mono ?_ ?_
  · intro _ s' h
    obtain ⟨k, htalks, hk, hskip, hstop⟩ := h
    exact ⟨_, htalks, hA s.pos k c hk hskip hstop⟩
  · rintro e s' (hfail | ⟨rfl, htalks, hskip⟩)
    · exact Or.inl hfail
    · exact Or.inr ⟨_, htalks, hB s.pos c hskip⟩

/-- The data response. -/
theorem awaitAccepted_meets
    (hA : ∀ p c, bus.wire p &&& 0x1F = 0x05 → P c → D.Plays c (reads bus p 1) →
      Q (D.run c (reads bus p 1)))
    (hB : ∀ p e c, e ≠ 0 → bus.wire p &&& 0x1F ≠ 0x05 → P c → D.Plays c (reads bus p 1) →
      E e (D.run c (reads bus p 1))) :
    Meets bus D m P (awaitAccepted bus) Q E := by
  intro s c hm
  refine (awaitAccepted_talks s).mono ?_ ?_
  · intro _ s' h
    obtain ⟨htalks, hacc⟩ := h
    exact ⟨_, htalks, hA s.pos c hacc⟩
  · rintro e s' (hfail | ⟨hcode, htalks, hacc⟩)
    · exact Or.inl hfail
    · exact Or.inr ⟨_, htalks, hB s.pos e c hcode hacc⟩

end Meets

/-! ## Writing -/

section Write

variable {γ : Type} {bus : Bus} {D : Device γ Byte} {m : Mem} {P Q R : γ → Prop}
  {E : CInt → γ → Prop} {cmd : U64} {resp : Resp}

theorem awaitResponse_eq (h : cmd &&& 0xFF ≠ 0x4C) (rdata : Ptr) (csaat : Bool) :
    awaitResponse bus cmd resp rdata csaat =
      (poll bus 8 rdata noResponse 0x12 >>= fun _ => restOfResponse bus resp rdata >>= fun _ =>
        if !csaat then csfree bus else pure ()) :=
  if_neg h

/-- The wait for the end of being busy, with what its two polls do. -/
theorem busyWait_meets {A : γ → Prop}
    (hresponse : Meets bus D m P (poll bus 8 (.rx, 0) noResponse 0x12) A E)
    (hbusy : Meets bus D m A (poll bus r1bTimeout (.rdummy, 0) (· = 0) 0x13) Q E) :
    Meets bus D m P (sdCmd bus 0 .r1b (.rx, 0) true) Q E := by
  have hcmd {cmd : U64} (h : cmd = 0) :
      sdCmd bus cmd .r1b (.rx, 0) true = awaitResponse bus cmd .r1b (.rx, 0) true :=
    if_neg (not_not.2 h)
  rw [hcmd rfl, awaitResponse_eq (by decide)]
  exact hresponse.seq (hbusy.seq Meets.pure)

/-- The command of a write and its response. -/
theorem writeCmd_meets {block len : U64} {A : γ → Prop}
    (hcmd : ∀ c, P c → A (D.run c (((List.range 6).map
      (byteOf (writeCmd block len).toNat)).map .host)))
    (hresponse : Meets bus D m A (poll bus 8 (.rx, 0) noResponse 0x12) Q E) :
    Meets bus D m P (sdCmd bus (writeCmd block len) .r1 (.rx, 0) true) Q E := by
  have hop : IsOpcode (if len > 1 then 0x59 else 0x58) := isOpcode_ite (by decide) (by decide)
  have hstop : writeCmd block len ≠ 0xFD := buildCmd_ne fun h => hop.2.2 h.symm
  have hsend : Meets bus D m P (sendCmd bus (writeCmd block len)) A E := by
    refine Meets.of_sent (fun s _ => sendCmd_talks _ s) fun c hP => ?_
    rw [if_neg hstop]
    exact hcmd c hP
  have hne : writeCmd block len ≠ 0 := buildCmd_ne fun h => hop.1 h.symm
  have hlow : writeCmd block len &&& 0xFF ≠ 0x4C := buildCmd_low _ hop
  rw [sdCmd_eq hne, awaitResponse_eq hlow]
  exact hsend.seq (hresponse.seq (Meets.pure.seq Meets.pure))

/-- A block, with what its parts do: the packet, the data response and the wait. -/
theorem writeBlock_meets {A B : γ → Prop} {buf : U64} {tok : Byte} {computeCrc : Bool} {b : ℕ}
    (hdepth : 1 ≤ bus.rxDepth)
    (hsend : ∀ c, P c → A (D.run c ((packetOf tok computeCrc
      (blockOf m (buf + BitVec.ofNat 64 (512 * b)))).map .host)))
    (hacc : Meets bus D m A (awaitAccepted bus) B E)
    (hwait : Meets bus D m B (sdCmd bus 0 .r1b (.rx, 0) true) Q E) :
    Meets bus D m P (writeBlock bus buf tok computeCrc b) Q E := by
  refine Meets.seq (Q := A) (Meets.of_sent (fun s hm => ?_) hsend) (hacc.seq hwait)
  rw [← hm]
  exact sendBlock_talks hdepth _ tok computeCrc s

/-- The end of a write, with what its parts do: the stop transaction, the wait after it, and the
release. -/
theorem endWrite_meets {len : U64} {A B C : γ → Prop}
    (hstop : len > 1 → ∀ c, P c → A (D.run c [.host 0xFD]))
    (hresponse : len > 1 → Meets bus D m A (poll bus 8 (.rx, 0) noResponse 0x12) B E)
    (hbusy : len > 1 → Meets bus D m B (poll bus r1bTimeout (.rdummy, 0) (· = 0) 0x13) C E)
    (hfree : ∀ c, (if len > 1 then C c else P c) → Q (D.run c [.deselect])) :
    Meets bus D m P (endWrite bus len) Q E := by
  unfold endWrite
  by_cases hlen : len > 1
  · rw [if_pos hlen, sdCmd_eq (by decide), awaitResponse_eq (by decide)]
    refine Meets.seq (Q := A) (Meets.of_sent (fun s _ => sendCmd_talks _ s) (hstop hlen)) ?_
    refine (hresponse hlen).seq ((hbusy hlen).seq ?_)
    exact Meets.of_sent (fun s _ => csfree_talks s) fun c hc => hfree c ((if_pos hlen).symm ▸ hc)
  · rw [if_neg hlen]
    exact Meets.of_sent (fun s _ => csfree_talks s) fun c hc => hfree c ((if_neg hlen).symm ▸ hc)

/-- A write, with what its parts do: the command and its response, a block and its data response,
the wait after it, and the end. -/
theorem writeBlocks_meets {I : ℕ → γ → Prop} {block buf len : U64} {computeCrc : Bool}
    (hlen : len ≠ 0)
    (hopen : Meets bus D m P (sdCmd bus (writeCmd block len) .r1 (.rx, 0) true) (I 0) E)
    (hblock : ∀ b < len.toNat, Meets bus D m (I b)
      (writeBlock bus buf (if len > 1 then 0xFC else 0xFE) computeCrc b) (I (b + 1)) E)
    (hend : Meets bus D m (I len.toNat) (endWrite bus len) Q E) :
    Meets bus D m P (writeBlocks bus buf block len computeCrc) Q E := by
  rw [writeBlocks_eq computeCrc hlen]
  have hdummy : Meets bus D m (I 0) (xferCsaat bus none none 1) (I 0) E :=
    Meets.of_sent (fun s _ => dummy_talks s) fun _ h => h
  exact hopen.seq (hdummy.seq ((Meets.forStep hblock).seq hend))

end Write

end Cheshire.SpiSdcard
