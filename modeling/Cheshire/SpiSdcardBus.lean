import Cheshire.SpiSdcard
import Cheshire.Lib.Scan

/-!
# Transactions of the SD card driver

Each part of the driver is described by the stretch of the wire that it accepts, as a scan:
`Piece x L X F` says that `x` ends regularly only after a stretch of `L`, with `X` of the state
then, and is left early with `F`. As long as no call fails, it is left early only if what is on
the wire is not such a stretch, and with the card still selected.

Pieces are put together with `Piece.seq`. The two that everything else is made of are receiving
into a local (`receive_piece`) and polling for a byte (`poll_piece`).
-/

namespace Cheshire.SpiSdcard

open Lib Cmd

/-! ## The log -/

/-- The first byte of a command, which is a transmission of six bytes. -/
def Txn.opcode (t : Txn) : Option Byte :=
  match t.seg with
  | .tx bytes => if bytes.length = 6 then bytes.head? else none
  | _ => none

/-- The argument of a command, which is sent highest byte first. -/
def Txn.argument (t : Txn) : ℕ :=
  match t.seg with
  | .tx bytes => le 4 fun i => bytes.getD (4 - i) 0
  | _ => 0

/-- Not a command, or CMD12. -/
def Txn.Plain (t : Txn) : Prop := t.opcode = none ∨ t.opcode = some 0x4C

/-- The last transaction was with the card. -/
def LastCard (s : Spi) : Prop := ∃ l t, s.log = l ++ [t] ∧ t.cs = .card

/-- The last transaction was that of `__spi_sdcard_csfree`. -/
def Released (s : Spi) : Prop := ∃ l, s.log = l ++ [⟨.dummy, false, .dummy 8⟩]

/-- The log has grown by transactions that open no transfer. -/
def Grows (s s' : Spi) : Prop := ∃ l, s'.log = s.log ++ l ∧ ∀ t ∈ l, t.Plain

theorem Grows.of_eq {s s' : Spi} (h : s'.log = s.log) : Grows s s' :=
  ⟨[], by rw [h, List.append_nil], fun _ ht => absurd ht List.not_mem_nil⟩

theorem Grows.refl (s : Spi) : Grows s s := .of_eq rfl

theorem Grows.trans {s s₁ s₂ : Spi} (h : Grows s s₁) (h' : Grows s₁ s₂) : Grows s s₂ := by
  obtain ⟨l, hl, hp⟩ := h
  obtain ⟨l', hl', hp'⟩ := h'
  refine ⟨l ++ l', by rw [hl', hl, List.append_assoc], fun t ht => ?_⟩
  exact (List.mem_append.1 ht).elim (hp t) (hp' t)

theorem Grows.single {s s' : Spi} {t : Txn} (h : s'.log = s.log ++ [t]) (ht : t.Plain) :
    Grows s s' := by
  refine ⟨[t], h, fun u hu => ?_⟩
  rw [List.mem_singleton.1 hu]
  exact ht

/-- What is on record stays on record. -/
theorem Grows.mem {s s' : Spi} (h : Grows s s') {t : Txn} (ht : t ∈ s.log) : t ∈ s'.log := by
  obtain ⟨l, hl, -⟩ := h
  rw [hl]
  exact List.mem_append_left _ ht

/-! ## Single transactions -/

section Single

variable {bus : Bus} {s : Spi}

variable (bus) in
/-- No call fails. -/
def NoFail : Prop := ∀ i, bus.fails i = none

variable (bus) in
/-- A call failed with `e`. -/
structure CallFailed (e : CInt) : Prop where
  code : e ≠ 0
  fails : ¬NoFail bus

theorem CallFailed.of_some {i : ℕ} {f : Failure} (h : bus.fails i = some f) :
    CallFailed bus f.code :=
  ⟨f.nonzero, fun hn => Option.some_ne_none f (h.symm.trans (hn i))⟩

/-- Receiving stores the next bytes of the wire. -/
theorem transaction_rx (cs : Cs) (csaat : Bool) (dst : Ptr) (n : ℕ) (s : Spi) :
    Ends (transaction bus ⟨cs, csaat, .rx dst n⟩ s)
      (fun _ s' => s'.mem = (s.store dst n fun i => bus.wire (s.pos + i)).mem ∧
        s'.pos = s.pos + n ∧ s'.log = s.log ++ [⟨cs, csaat, .rx dst n⟩])
      (fun e s' => CallFailed bus e ∧ (∃ f, s'.mem = (s.store dst n f).mem) ∧
        s'.log = s.log ++ [⟨cs, csaat, .rx dst n⟩]) := by
  unfold transaction
  cases hf : bus.fails s.log.length with
  | none => exact ⟨rfl, rfl, rfl⟩
  | some f => exact ⟨.of_some hf, ⟨f.left, rfl⟩, rfl⟩

/-- Other segments change nothing but the log. -/
theorem transaction_other {t : Txn} (ht : ∀ dst n, t.seg ≠ .rx dst n) (s : Spi) :
    Ends (transaction bus t s)
      (fun _ s' => s'.mem = s.mem ∧ s'.pos = s.pos ∧ s'.log = s.log ++ [t])
      (fun e s' => CallFailed bus e ∧ s'.mem = s.mem ∧ s'.pos = s.pos ∧ s'.log = s.log ++ [t]) := by
  unfold transaction
  cases hf : bus.fails s.log.length with
  | none =>
    cases hseg : t.seg with
    | rx dst n => exact absurd hseg (ht dst n)
    | _ => exact ⟨rfl, rfl, rfl⟩
  | some f =>
    cases hseg : t.seg with
    | rx dst n => exact absurd hseg (ht dst n)
    | _ => exact ⟨.of_some hf, rfl, rfl, rfl⟩

theorem plain_rx (cs : Cs) (csaat : Bool) (dst : Ptr) (n : ℕ) :
    Txn.Plain ⟨cs, csaat, .rx dst n⟩ := Or.inl rfl

theorem plain_dummy (cs : Cs) (csaat : Bool) (n : ℕ) : Txn.Plain ⟨cs, csaat, .dummy n⟩ :=
  Or.inl rfl

end Single

/-! ## Pieces -/

section Piece

variable (bus : Bus)

/-- A stretch of `L` has been accepted. -/
structure Done (L : Scan) (s s' : Spi) : Prop where
  grows : Grows s s'
  scan : L s.pos s'.pos

/-- No stretch of `L` has been accepted, or a call has failed. -/
structure Failed (L : Scan) (e : CInt) (s s' : Spi) : Prop where
  code : e ≠ 0
  grows : Grows s s'
  card : NoFail bus → LastCard s'
  scan : NoFail bus → ∀ q, ¬L s.pos q

def Piece (x : Sd Unit) (L : Scan) (X F : Spi → Prop) (s : Spi) : Prop :=
  Ends (x s) (fun _ s' => Done L s s' ∧ X s') (fun e s' => Failed bus L e s s' ∧ F s')

variable {bus} {L M : Scan} {X Y F G : Spi → Prop} {x y : Sd Unit} {e : CInt}
  {s s₁ s₂ : Spi}

theorem Done.seq (h : Done L s s₁) (h' : Done M s₁ s₂) : Done (L.seq M) s s₂ :=
  ⟨h.grows.trans h'.grows, s₁.pos, h.scan, h'.scan⟩

/-- A failure at the start. -/
theorem Failed.seq (h : Failed bus L e s s₁) : Failed bus (L.seq M) e s s₁ :=
  ⟨h.code, h.grows, h.card, fun hn _ ⟨q, hq, _⟩ => h.scan hn q hq⟩

/-- A failure after a stretch of `L`: where that ends is determined. -/
theorem Done.failed (h : Done L s s₁) (hL : L.Functional) (h' : Failed bus M e s₁ s₂) :
    Failed bus (L.seq M) e s s₂ := by
  refine ⟨h'.code, h.grows.trans h'.grows, h'.card, fun hn r ⟨q, hq, hr⟩ => ?_⟩
  rw [hL _ _ _ hq h.scan] at hr
  exact h'.scan hn r hr

/-- A failure of a call says nothing about the wire. -/
theorem failed_of_call (hfail : CallFailed bus e) (h : Grows s s₁) : Failed bus L e s s₁ :=
  ⟨hfail.code, h, fun hn => absurd hn hfail.fails, fun hn => absurd hn hfail.fails⟩

/-- Something that only fails when a call does. -/
theorem Piece.of_calls
    (h : Ends (x s) (fun _ s' => Grows s s' ∧ L s.pos s'.pos ∧ X s')
      (fun e s' => CallFailed bus e ∧ Grows s s' ∧ F s')) : Piece bus x L X F s := by
  refine Ends.mono h ?_ ?_
  · intro _ s' h'
    obtain ⟨hgrows, hscan, hX⟩ := h'
    exact ⟨⟨hgrows, hscan⟩, hX⟩
  · intro _ s' h'
    obtain ⟨hfail, hgrows, hF⟩ := h'
    exact ⟨failed_of_call hfail hgrows, hF⟩

theorem Piece.seq (hx : Piece bus x L X F s) (hL : L.Functional)
    (hy : ∀ s₁, Done L s s₁ → X s₁ → Piece bus y M Y F s₁) :
    Piece bus (x >>= fun _ => y) (L.seq M) Y F s := by
  refine (Ends.mono hx (fun _ _ h => h) fun _ s' h => ⟨h.1.seq, h.2⟩).bind ?_
  intro _ s₁ h
  obtain ⟨hdone, hX⟩ := h
  refine (hy s₁ hdone hX).mono ?_ ?_
  · intro _ s₂ h
    obtain ⟨hdone', hY⟩ := h
    exact ⟨hdone.seq hdone', hY⟩
  · intro _ s₂ h
    obtain ⟨hfail, hF⟩ := h
    exact ⟨hdone.failed hL hfail, hF⟩

theorem Piece.mono (h : Piece bus x L X F s) (hX : ∀ s', Done L s s' → X s' → Y s')
    (hF : ∀ s', F s' → G s') : Piece bus x L Y G s :=
  Ends.mono h (fun _ s' h => ⟨h.1, hX s' h.1 h.2⟩) fun _ s' h => ⟨h.1, hF s' h.2⟩

theorem Piece.nothing (hX : X s) : Piece bus (pure ()) (Scan.skip 0) X F s :=
  ⟨⟨.refl s, rfl⟩, hX⟩

theorem Piece.modify {g : Spi → Spi} (hlog : (g s).log = s.log) (hpos : (g s).pos = s.pos)
    (hX : X (g s)) : Piece bus (modify g) (Scan.skip 0) X F s :=
  ⟨⟨.of_eq hlog, hpos⟩, hX⟩

/-- Something that receives nothing in front of a piece. -/
theorem Piece.skip_seq (hx : Piece bus x (Scan.skip 0) X F s)
    (hy : ∀ s₁, X s₁ → Piece bus y M Y F s₁) : Piece bus (x >>= fun _ => y) M Y F s := by
  rw [← Scan.skip_zero_seq (L := M)]
  exact hx.seq (Scan.skip_functional 0) fun s₁ _ => hy s₁

/-- An optional piece in front of another. -/
theorem Piece.when_seq {c : Prop} [Decidable c] (hx : c → Piece bus x L X F s) (hX : ¬c → X s)
    (hL : L.Functional) (hy : ∀ s₁, X s₁ → Piece bus y M Y F s₁) :
    Piece bus (if c then x >>= fun _ => y else y) ((Scan.when c L).seq M) Y F s := by
  by_cases hc : c
  · rw [if_pos hc, Scan.when_pos hc]
    exact (hx hc).seq hL fun s₁ _ => hy s₁
  · rw [if_neg hc, Scan.when_neg hc, Scan.skip_zero_seq]
    exact hy s (hX hc)

/-- Where no call fails, a stretch of `L` is accepted. -/
theorem Piece.runs (h : Piece bus x L X F s) (hn : NoFail bus) (hL : L.Functional) {q : ℕ}
    (hq : L s.pos q) : ∃ s', x s = .ok () s' ∧ s'.pos = q ∧ X s' := by
  unfold Piece at h
  cases hr : x s with
  | ok u s' =>
    rw [hr] at h
    exact ⟨s', rfl, hL _ _ _ h.1.scan hq, h.2⟩
  | error e s' =>
    rw [hr] at h
    exact absurd hq (h.1.scan hn q)

/-- A loop whose body is a piece, with an invariant on the side. -/
theorem Piece.forStep {J : ℕ → Spi → Prop} {body : ℕ → Sd Unit} {n : ℕ} (hL : L.Functional)
    (hbody : ∀ b < n, ∀ s, J b s → Piece bus (body b) L (J (b + 1)) F s) {s : Spi} (hJ : J 0 s) :
    Piece bus (Cmd.forStep n 1 body n 0) (L.times n) (J n) F s := by
  refine Cmd.forStep_induction
    (R := fun i x => ∀ s, J i s → Piece bus x (L.times (n - i)) (J n) F s) ?_ ?_ s hJ
  · intro s hJ
    rw [Nat.sub_self]
    exact Piece.nothing hJ
  · intro i hi x hx s hJ
    rw [show n - i = n - (i + 1) + 1 by omega]
    exact (hbody i hi s hJ).seq hL fun s₁ _ => hx s₁

end Piece

/-! ## Polling -/

section Poll

variable {bus : Bus} {again : Byte → Bool} {dst : Ptr}

theorem load_store (s : Spi) (p : Ptr) {n : ℕ} (f : ℕ → Byte) {i : ℕ} (hi : i < n)
    (hn : n ≤ 2 ^ 64) : (s.store p n f).load p i = f i := by
  unfold Spi.load Spi.store
  dsimp only
  rw [Function.update_self, Mem.write_read hi hn]

theorem mem_store_self (s : Spi) (p : Ptr) (n : ℕ) (f : ℕ → Byte) :
    (s.store p n f).mem p.1 = (s.mem p.1).write p.2 n f :=
  Function.update_self _ _ _

/-- Storing in one object leaves the others alone. -/
theorem mem_store_of_ne (s : Spi) {p : Ptr} (n : ℕ) (f : ℕ → Byte) {o : Obj} (ho : o ≠ p.1) :
    (s.store p n f).mem o = s.mem o :=
  Function.update_of_ne ho _ _

theorem load_congr {s s' : Spi} (h : s'.mem = s.mem) (p : Ptr) (i : ℕ) :
    s'.load p i = s.load p i := by
  unfold Spi.load
  rw [h]

/-- The bytes received in a local of the driver are the next ones. -/
theorem receive_ends (dst : Ptr) (hdst : dst.1 ≠ .ext) {n : ℕ} (hn : n ≤ 2 ^ 64) (s : Spi) :
    Ends (xferCsaat bus (some dst) none n s)
      (fun _ s' => Grows s s' ∧ s'.pos = s.pos + n ∧ s'.mem .ext = s.mem .ext ∧ LastCard s' ∧
        ∀ i < n, s'.load dst i = bus.wire (s.pos + i))
      (fun e s' => CallFailed bus e ∧ Grows s s' ∧ s'.mem .ext = s.mem .ext) := by
  refine (transaction_rx .card true dst n s).mono ?_ ?_
  · intro _ s' h
    obtain ⟨hmem, hpos, hlog⟩ := h
    refine ⟨.single hlog (plain_rx _ _ _ _), hpos, ?_, ⟨s.log, _, hlog, rfl⟩, fun i hi => ?_⟩
    · rw [hmem, mem_store_of_ne s n _ hdst.symm]
    · rw [load_congr hmem, load_store s dst _ hi hn]
  · intro _ s' h
    obtain ⟨hfail, ⟨f, hmem⟩, hlog⟩ := h
    refine ⟨hfail, .single hlog (plain_rx _ _ _ _), ?_⟩
    rw [hmem, mem_store_of_ne s n _ hdst.symm]

theorem receive_piece (dst : Ptr) (hdst : dst.1 ≠ .ext) {n : ℕ} (hn : n ≤ 2 ^ 64) {m : Mem}
    {s : Spi} (hm : s.mem .ext = m) :
    Piece bus (xferCsaat bus (some dst) none n) (Scan.skip n)
      (fun s' => s'.mem .ext = m ∧ LastCard s' ∧
        ∀ i < n, s'.load dst i = bus.wire (s'.pos - n + i))
      (fun s' => s'.mem .ext = m) s := by
  refine Piece.of_calls ((receive_ends dst hdst hn s).mono ?_ ?_)
  · intro _ s' h
    obtain ⟨hgrows, hpos, hkeep, hcard, hload⟩ := h
    refine ⟨hgrows, hpos, hkeep.trans hm, hcard, fun i hi => ?_⟩
    rw [hload i hi, hpos, Nat.add_sub_cancel]
  · intro _ s' h
    obtain ⟨hfail, hgrows, hkeep⟩ := h
    exact ⟨hfail, hgrows, hkeep.trans hm⟩

/-- The loop reads `k` bytes, and asks for another one after all but the last. `I n` holds after `n`
of them. -/
theorem pollLoop_rule {dst : Ptr} {s : Spi} {I : ℕ → Spi → Prop} {F : CInt → Spi → Prop} {p : ℕ}
    (hreceive : ∀ n s₁, I n s₁ → Ends (xferCsaat bus (some dst) none 1 s₁)
      (fun _ s' => I (n + 1) s' ∧ s'.load dst 0 = bus.wire (p + n)) F)
    (timeout : ℕ) (hs : I 0 s) :
    Ends (pollLoop bus dst again timeout s)
      (fun t s' => ∃ k, t + k = timeout ∧ I k s' ∧
        (∀ j, j + 1 < k → again (bus.wire (p + j)) = true) ∧
        (t ≠ 0 → ∃ i, k = i + 1 ∧ again (bus.wire (p + i)) = false)) F := by
  have hrun (timeout n : ℕ) (s : Spi) (hs : I n s)
      (hskip : ∀ j < n, again (bus.wire (p + j)) = true) :
      Ends (pollLoop bus dst again timeout s)
        (fun t s' => ∃ k, t + k = n + timeout ∧ I k s' ∧
          (∀ j, j + 1 < k → again (bus.wire (p + j)) = true) ∧
          (t ≠ 0 → ∃ i, k = i + 1 ∧ again (bus.wire (p + i)) = false)) F := by
    induction timeout generalizing n s with
    | zero =>
      exact ⟨n, Nat.zero_add n, hs, fun j hj => hskip j (by omega), fun h => absurd rfl h⟩
    | succ timeout ih =>
      refine (hreceive n s hs).bind ?_
      intro _ s₁ h
      obtain ⟨hs₁, hload⟩ := h
      show Ends ((if timeout ≠ 0 ∧ again (s₁.load dst 0) = true then pollLoop bus dst again timeout
        else pure timeout) s₁) _ _
      rw [hload]
      by_cases hagain : timeout ≠ 0 ∧ again (bus.wire (p + n)) = true
      · rw [if_pos hagain, Nat.add_succ, ← Nat.succ_add]
        refine ih (n + 1) s₁ hs₁ fun j hj => ?_
        rcases Nat.lt_succ_iff_lt_or_eq.1 hj with hj | rfl
        · exact hskip j hj
        · exact hagain.2
      · rw [if_neg hagain]
        refine ⟨n + 1, by omega, hs₁, fun j hj => hskip j (by omega), fun ht => ⟨n, rfl, ?_⟩⟩
        rw [not_and, Bool.not_eq_true] at hagain
        exact hagain ht
  refine (hrun timeout 0 s hs fun j hj => absurd hj (Nat.not_lt_zero j)).mono ?_ fun _ _ h => h
  intro t s' h
  rwa [Nat.zero_add] at h

/-- The loop ends with timeout 0 if and only if no byte was accepted in time. -/
theorem pollLoop_ends (dst : Ptr) (hdst : dst.1 ≠ .ext) (timeout : ℕ) (s : Spi) :
    Ends (pollLoop bus dst again timeout s)
      (fun t s' => Grows s s' ∧ s'.mem .ext = s.mem .ext ∧
        (timeout ≠ 0 → LastCard s' ∧ s'.load dst 0 = bus.wire (s'.pos - 1)) ∧
        if t = 0 then ∀ q, ¬Scan.polled bus.wire again timeout s.pos q
        else Scan.polled bus.wire again timeout s.pos s'.pos)
      (fun e s' => CallFailed bus e ∧ Grows s s' ∧ s'.mem .ext = s.mem .ext) := by
  refine (pollLoop_rule (s := s) (p := s.pos) (I := fun n s' => Grows s s' ∧
    s'.mem .ext = s.mem .ext ∧ s'.pos = s.pos + n ∧
    (n ≠ 0 → LastCard s' ∧ s'.load dst 0 = bus.wire (s'.pos - 1))) ?_ timeout
      ⟨.refl s, rfl, rfl, fun h => absurd rfl h⟩).mono ?_ fun _ _ h => h
  · rintro n s₁ ⟨hgrows, hkeep, hpos, -⟩
    refine (receive_ends dst hdst (by decide) s₁).mono ?_ ?_
    · intro _ s' h
      obtain ⟨hgrows', hpos', hkeep', hcard, hload⟩ := h
      replace hload : s'.load dst 0 = bus.wire s₁.pos := hload 0 Nat.one_pos
      refine ⟨⟨hgrows.trans hgrows', hkeep'.trans hkeep, by omega, fun _ => ⟨hcard, ?_⟩⟩, ?_⟩
      · rw [hload, hpos', Nat.add_sub_cancel]
      · rw [hload, hpos]
    · intro _ s' h
      obtain ⟨hfail, hgrows', hkeep'⟩ := h
      exact ⟨hfail, hgrows.trans hgrows', hkeep'.trans hkeep⟩
  · intro t s' h
    obtain ⟨k, hk, ⟨hgrows, hkeep, hpos, hlast⟩, hskip, hstop⟩ := h
    by_cases h0 : t = 0
    · rw [if_pos h0]
      obtain rfl : k = timeout := by omega
      refine ⟨hgrows, hkeep, hlast, ?_⟩
      rintro q ⟨j, hj, -, hacc, -⟩
      rw [hskip j hj] at hacc
      exact Bool.noConfusion hacc
    · obtain ⟨i, rfl, hacc⟩ := hstop h0
      rw [if_neg h0]
      exact ⟨hgrows, hkeep, fun _ => hlast (Nat.succ_ne_zero i), i, by omega,
        fun j hj => hskip j (by omega), hacc, hpos⟩

/-- Polling for a byte leaves it at `dst`. -/
theorem poll_piece (dst : Ptr) (hdst : dst.1 ≠ .ext) {timeout : ℕ} (ht : timeout ≠ 0)
    {code : CInt} (hcode : code ≠ 0) {m : Mem} {s : Spi} (hm : s.mem .ext = m) :
    Piece bus (poll bus timeout dst again code) (Scan.polled bus.wire again timeout)
      (fun s' => s'.mem .ext = m ∧ LastCard s' ∧ s'.load dst 0 = bus.wire (s'.pos - 1))
      (fun s' => s'.mem .ext = m) s := by
  refine Ends.bind (Ends.mono (pollLoop_ends dst hdst timeout s) (fun _ _ h => h) ?_) ?_
  · intro _ s' h
    obtain ⟨hfail, hgrows, hkeep⟩ := h
    exact ⟨failed_of_call hfail hgrows, hkeep.trans hm⟩
  · intro t s' h
    obtain ⟨hgrows, hkeep, hlast, hscan⟩ := h
    by_cases h0 : t = 0
    · rw [if_pos h0] at hscan ⊢
      exact ⟨⟨hcode, hgrows, fun _ => (hlast ht).1, fun _ => hscan⟩, hkeep.trans hm⟩
    · rw [if_neg h0] at hscan ⊢
      exact ⟨⟨hgrows, hscan⟩, hkeep.trans hm, hlast ht⟩

end Poll

end Cheshire.SpiSdcard
