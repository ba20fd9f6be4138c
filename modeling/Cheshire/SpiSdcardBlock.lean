import Cheshire.SpiSdcardCmd

/-!
# Reading one block

A block on the wire is a token, 512 bytes and two checksum bytes (`blockScan`). The body of the
loop over the blocks accepts one, and leaves the bytes from `startOf b` up to `endOf b` of it at
the destination, whichever of the four ways it takes there (`readBlock_piece`).
-/

namespace Cheshire.SpiSdcard

open Lib Cmd

/-! ## Chunks -/

section Chunks

variable {bus : Bus} {body : ℕ → ℕ → Sd Unit} {s s₁ : Spi}

/-- The chunks cover a block; their offsets and lengths are whole words. -/
theorem forChunks_ends {I : ℕ → Spi → Prop} {E : CInt → Spi → Prop} (hdepth : 1 ≤ bus.rxDepth)
    (hbody : ∀ offs n, n % 4 = 0 → offs + n ≤ 512 →
      Triple (I offs) (body offs n) (fun _ => I (offs + n)) E) (h0 : I 0 s) :
    Ends (forChunks bus body s) (fun _ => I 512) E := by
  have hchunk (offs : ℕ) (hoffs : offs < 512) :
      Triple (fun s => offs % 4 = 0 ∧ I offs s)
        (body offs (min (4 * bus.rxDepth) (512 - offs)))
        (fun _ s => min 512 (offs + 4 * bus.rxDepth) % 4 = 0 ∧
          I (min 512 (offs + 4 * bus.rxDepth)) s) E := by
    intro s₁ hs₁
    obtain ⟨hmod, hI⟩ := hs₁
    have hnext : min 512 (offs + 4 * bus.rxDepth) =
        offs + min (4 * bus.rxDepth) (512 - offs) := by omega
    rw [hnext]
    refine Ends.mono (hbody offs _ (by omega) (by omega) s₁ hI) ?_ fun _ _ h => h
    exact fun _ _ h => ⟨by omega, h⟩
  refine Ends.mono (Triple.forStep (by omega) hchunk 512 0 (by omega) (by omega) s ⟨rfl, h0⟩)
    (fun _ _ h => h.2) fun _ _ h => h

/-- A store right after a store is one store. -/
theorem mem_store_add {p : Ptr} {n k : ℕ} {f g : ℕ → Byte} (h : s₁.mem = (s.store p n f).mem)
    (hg : ∀ i < k, g i = f (n + i)) (hlen : n + k ≤ 2 ^ 64) :
    (s₁.store (p.add n) k g).mem = (s.store p (n + k) f).mem := by
  have hfst : s₁.mem p.1 = (s.mem p.1).write p.2 n f := by
    rw [h, mem_store_self]
  show Function.update s₁.mem p.1 ((s₁.mem p.1).write (p.2 + BitVec.ofNat 64 n) k g) = _
  rw [hfst, Mem.write_congr hg, Mem.write_append hlen, h]
  exact Function.update_idem _ _ _

theorem receiveChunks_ends (hdepth : 1 ≤ bus.rxDepth) (buf : Ptr) (s : Spi) :
    Ends (forChunks bus (fun offs n => xferCsaat bus (some (buf.add offs)) none n) s)
      (fun _ s' => Grows s s' ∧ s'.pos = s.pos + 512 ∧
        s'.mem = (s.store buf 512 fun i => bus.wire (s.pos + i)).mem)
      (fun e s' => CallFailed bus e ∧ Grows s s' ∧
        ∃ n ≤ 512, ∃ f, s'.mem = (s.store buf n f).mem) := by
  refine forChunks_ends (I := fun offs s' => Grows s s' ∧ s'.pos = s.pos + offs ∧
    s'.mem = (s.store buf offs fun i => bus.wire (s.pos + i)).mem) hdepth ?_ ?_
  · intro offs n _ hlen s₁ h
    obtain ⟨hgrows, hpos, hmem⟩ := h
    refine (transaction_rx .card true (buf.add offs) n s₁).mono ?_ ?_
    · intro _ s' h
      obtain ⟨hmem', hpos', hlog'⟩ := h
      refine ⟨hgrows.trans (.single hlog' (plain_rx _ _ _ _)), ?_, ?_⟩
      · rw [hpos', hpos, Nat.add_assoc]
      rw [hmem', mem_store_add hmem (fun i _ => ?_) (by omega)]
      rw [hpos, Nat.add_assoc]
    · intro _ s' h
      obtain ⟨hfail, ⟨f, hmem'⟩, hlog'⟩ := h
      refine ⟨hfail, hgrows.trans (.single hlog' (plain_rx _ _ _ _)), offs + n, hlen,
        fun i => if i < offs then bus.wire (s.pos + i) else f (i - offs), ?_⟩
      rw [hmem']
      refine mem_store_add ?_ (fun i _ => ?_) (by omega)
      · rw [hmem]
        unfold Spi.store
        rw [Mem.write_congr fun i hi => (if_pos hi).symm]
      · rw [if_neg (by omega), Nat.add_sub_cancel_left]
  · refine ⟨.refl s, rfl, ?_⟩
    unfold Spi.store
    rw [Mem.write_zero]
    exact (Function.update_eq_self _ _).symm

end Chunks

/-! ## Token, data and checksum -/

section Data

variable {bus : Bus} {check : Bool} {m : Mem} {s : Spi}

variable (bus) in
/-- Less than the timeout of 0xFF bytes, and the token 0xFE. -/
def tokenScan : Scan := fun p q =>
  Scan.polled bus.wire (· = 0xFF) dataTimeout p q ∧ bus.wire (q - 1) = 0xFE

variable (bus) in
/-- The two bytes after the block at `p` are its checksum. -/
def CrcOk (p : ℕ) : Prop :=
  BitVec.ofNat 16 (le 2 fun i => bus.wire (p + 512 + i)) =
    crc16 ((List.range 512).map fun i => bus.wire (p + i))

variable (bus check) in
/-- A block and its checksum, which may have to be right. -/
def dataScan : Scan := fun p q => (check = true → CrcOk bus p) ∧ q = p + 514

variable (bus check) in
def blockScan : Scan := (tokenScan bus).seq (dataScan bus check)

theorem tokenScan_functional : (tokenScan bus).Functional :=
  fun p q q' h h' => Scan.polled_functional _ _ _ p q q' h.1 h'.1

theorem blockScan_functional : (blockScan bus check).Functional :=
  tokenScan_functional.seq fun _ _ _ h h' => h.2.trans h'.2.symm

theorem awaitToken_piece (hm : s.mem .ext = m) :
    Piece bus (awaitToken bus) (tokenScan bus) (fun s' => s'.mem .ext = m)
      (fun s' => s'.mem .ext = m) s := by
  refine Ends.bind (Ends.mono (poll_piece (.rx, 0) (by decide) (by decide) (by decide) hm)
    (fun _ _ h => h) ?_) ?_
  · intro _ s' h
    obtain ⟨hfail, hm'⟩ := h
    exact ⟨⟨hfail.code, hfail.grows, hfail.card, fun hn q hq => hfail.scan hn q hq.1⟩, hm'⟩
  intro _ s₁ h
  obtain ⟨hdone, hm₁, hcard, hload⟩ := h
  show Ends ((if s₁.load (.rx, 0) 0 ≠ 0xFE then throw 0x20 else pure () : Sd Unit) s₁) _ _
  rw [hload]
  by_cases htok : bus.wire (s₁.pos - 1) = 0xFE
  · rw [if_neg (not_not.2 htok)]
    exact ⟨⟨hdone.grows, hdone.scan, htok⟩, hm₁⟩
  · rw [if_pos htok]
    refine ⟨⟨by decide, hdone.grows, fun _ => hcard, fun _ q hq => htok ?_⟩, hm₁⟩
    rw [Scan.polled_functional _ _ _ _ _ _ hdone.scan hq.1]
    exact hq.2

variable (bus) in
/-- What `receiveBlock` does before it compares the checksum. -/
def receiveData (buf : Ptr) : Sd Unit := do
  forChunks bus fun offs chunkLen => xferCsaat bus (some (buf.add offs)) none chunkLen
  xferCsaat bus (some (.crc, 0)) none 2

/-- The block in its buffer, and what the comparison sees of it. -/
structure DataReceived (bus : Bus) (buf : Ptr) (s s' : Spi) : Prop where
  grows : Grows s s'
  pos : s'.pos = s.pos + 514
  card : LastCard s'
  keep : ∀ o ≠ .crc, s'.mem o = (s.store buf 512 fun i => bus.wire (s.pos + i)).mem o
  crc : le 2 (s'.load (.crc, 0)) = le 2 fun i => bus.wire (s.pos + 512 + i)
  bytes : s'.bytes buf 512 = (List.range 512).map fun i => bus.wire (s.pos + i)

theorem receiveData_ends (hdepth : 1 ≤ bus.rxDepth) {buf : Ptr} (hbuf : buf.1 ≠ .crc) (s : Spi) :
    Ends (receiveData bus buf s) (fun _ => DataReceived bus buf s)
      (fun e s' => CallFailed bus e ∧ Grows s s' ∧
        ∃ n ≤ 512, ∃ f, ∀ o ≠ .crc, s'.mem o = (s.store buf n f).mem o) := by
  refine Ends.bind (Ends.mono (receiveChunks_ends hdepth buf s) (fun _ _ h => h) ?_) ?_
  · intro _ s' h
    obtain ⟨hfail, hgrows, n, hn, f, hmem⟩ := h
    exact ⟨hfail, hgrows, n, hn, f, fun o _ => congrFun hmem o⟩
  intro _ s₁ h
  obtain ⟨hgrows, hpos₁, hmem⟩ := h
  refine Ends.mono (transaction_rx .card true (.crc, 0) 2 s₁) ?_ ?_
  · intro _ s₂ h
    obtain ⟨hmem₂, hpos₂, hlog₂⟩ := h
    have hkeep (o : Obj) (ho : o ≠ .crc) :
        s₂.mem o = (s.store buf 512 fun i => bus.wire (s.pos + i)).mem o := by
      rw [hmem₂, mem_store_of_ne s₁ 2 _ ho]
      exact congrFun hmem o
    refine ⟨hgrows.trans (.single hlog₂ (plain_rx _ _ _ _)), by rw [hpos₂, hpos₁],
      ⟨s₁.log, _, hlog₂, rfl⟩, hkeep, le_congr fun i hi => ?_, ?_⟩
    · rw [load_congr hmem₂, load_store s₁ _ _ hi (by decide), hpos₁]
    · rw [← bytes_store s buf (fun i => bus.wire (s.pos + i)) (le_refl 512) (by decide)]
      refine List.map_congr_left fun i _ => ?_
      unfold Spi.load
      rw [hkeep _ hbuf]
  · intro _ s' h
    obtain ⟨hfail, ⟨f, hmem'⟩, hlog⟩ := h
    refine ⟨hfail, hgrows.trans (.single hlog (plain_rx _ _ _ _)), 512, le_rfl,
      fun i => bus.wire (s.pos + i), fun o ho => ?_⟩
    rw [hmem', mem_store_of_ne s₁ 2 f ho]
    exact congrFun hmem o

theorem receiveBlock_eq (buf : Ptr) : receiveBlock bus buf check =
    (receiveData bus buf >>= fun _ => get >>= fun s : Spi =>
      if check = true ∧ BitVec.ofNat 16 (le 2 (s.load (.crc, 0))) ≠ crc16 (s.bytes buf 512) then
        throw 0x21
      else pure ()) := by
  rw [receiveData, bind_assoc]
  rfl

/-- The block is left in its buffer. If it is not accepted, the buffer may hold a part of it. -/
theorem receiveBlock_piece (hdepth : 1 ≤ bus.rxDepth) {buf : Ptr} (hbuf : buf.1 ≠ .crc) (s : Spi) :
    Piece bus (receiveBlock bus buf check) (dataScan bus check)
      (fun s' => ∀ o ≠ .crc,
        s'.mem o = (s.store buf 512 fun i => bus.wire (s'.pos - 514 + i)).mem o)
      (fun s' => ∃ n ≤ 512, ∃ f, ∀ o ≠ .crc, s'.mem o = (s.store buf n f).mem o) s := by
  rw [receiveBlock_eq]
  refine Ends.bind (Ends.mono (receiveData_ends hdepth hbuf s) (fun _ _ h => h) ?_) ?_
  · intro _ s' h
    obtain ⟨hfail, hgrows, hmem⟩ := h
    exact ⟨failed_of_call hfail hgrows, hmem⟩
  intro _ s₂ h
  obtain ⟨hgrows₂, hpos, hcard, hkeep, hcrc, hbytes⟩ := h
  show Ends ((if check = true ∧ BitVec.ofNat 16 (le 2 (s₂.load (.crc, 0))) ≠
    crc16 (s₂.bytes buf 512) then throw 0x21 else pure () : Sd Unit) s₂) _ _
  rw [hcrc, hbytes]
  by_cases hbad : check = true ∧ BitVec.ofNat 16 (le 2 fun i => bus.wire (s.pos + 512 + i)) ≠
      crc16 ((List.range 512).map fun i => bus.wire (s.pos + i))
  · rw [if_pos hbad]
    exact ⟨⟨by decide, hgrows₂, fun _ => hcard,
      fun _ q hq => hbad.2 (hq.1 hbad.1)⟩, 512, le_rfl, _, hkeep⟩
  · rw [if_neg hbad]
    refine ⟨⟨hgrows₂, fun hc => not_not.1 fun h => hbad ⟨hc, h⟩, hpos⟩, fun o ho => ?_⟩
    rw [hkeep o ho, hpos, Nat.add_sub_cancel]

/-- A wrong checksum is noticed. -/
theorem receiveBlock_rejects (hdepth : 1 ≤ bus.rxDepth) {buf : Ptr} (hbuf : buf.1 ≠ .crc)
    {s' : Spi} (hdata : receiveData bus buf s = .ok () s') (hcrc : ¬CrcOk bus s.pos) :
    receiveBlock bus buf true s = .error 0x21 s' := by
  have hends := receiveData_ends hdepth hbuf s
  rw [hdata] at hends
  obtain ⟨-, -, -, -, hload, hbytes⟩ := hends
  rw [receiveBlock_eq, bind_ok hdata]
  show (if true = true ∧ BitVec.ofNat 16 (le 2 (s'.load (.crc, 0))) ≠ crc16 (s'.bytes buf 512) then
    throw 0x21 else pure () : Sd Unit) s' = _
  rw [hload, hbytes, if_pos ⟨rfl, hcrc⟩]
  rfl

end Data

/-! ## The destination -/

namespace Align

variable (al : Align) (b : ℕ)

/-- Where the requested part of the block starts. -/
def startOf : ℕ := if al.firstBlock b then al.firstOffs.toNat else 0

/-- Where the requested part of the block ends. -/
def endOf : ℕ := if al.lastBlock b then al.lastLen.toNat else 512

theorem endOf_le : al.endOf b ≤ 512 := by
  unfold endOf
  split_ifs
  · exact al.lastLen_le
  · exact le_rfl

end Align

section Destination

variable {bus : Bus} {check : Bool} {al : Align} {b : ℕ} {m : Mem} {f : ℕ → Byte} {s : Spi}

/-- Copying a part of a block from the swap buffer. -/
theorem copy_swap {dst src : U64} {a n : ℕ} (hsrc : src = BitVec.ofNat 64 a) (han : a + n ≤ 512)
    (hf : ∀ i < 512, s.load (.swap, 0) i = f i) :
    (s.copy (.ext, dst) (.swap, src) n).mem .ext = (s.mem .ext).write dst n fun i => f (a + i) := by
  show (s.store (.ext, dst) n (s.load (.swap, src))).mem .ext = _
  refine (mem_store_self s (.ext, dst) n _).trans ?_
  refine Mem.write_congr fun i hi => ?_
  rw [← hf (a + i) (by omega)]
  unfold Spi.load
  show s.mem .swap (src + BitVec.ofNat 64 i) = s.mem .swap (0#64 + BitVec.ofNat 64 (a + i))
  rw [hsrc, BitVec.ofNat_add, BitVec.zero_add]

/-- All four ways of copying a block leave its requested part at the destination. -/
theorem copyBlock_ext (dst : U64) (hle : al.startOf b ≤ al.endOf b)
    (hbuf : al.buffered b = true → s.mem .ext = m ∧ ∀ i < 512, s.load (.swap, 0) i = f i)
    (hdirect : al.buffered b = false → s.mem .ext = m.write dst 512 f) :
    (copyBlock al dst b s).mem .ext =
      m.write (dst + BitVec.ofNat 64 (al.startOf b)) (al.endOf b - al.startOf b)
        fun i => f (al.startOf b + i) := by
  have hfirst := al.firstOffs_lt
  have hlast := al.lastLen_le
  have hoffs : 0 + al.firstOffs = BitVec.ofNat 64 al.firstOffs.toNat := by simp
  unfold Align.buffered at hbuf hdirect
  unfold Align.startOf Align.endOf at hle ⊢
  unfold copyBlock
  cases h1 : al.firstBlock b with
  | true =>
    obtain ⟨hm, hf⟩ := hbuf (by rw [h1, Bool.true_or])
    cases h2 : al.lastBlock b with
    | true =>
      have hlen : (al.lastLen - al.firstOffs).toNat = al.lastLen.toNat - al.firstOffs.toNat := by
        simp only [h1, h2, if_true] at hle
        rw [BitVec.toNat_sub]
        omega
      simp only [h1, h2, if_true, Bool.and_true] at hle ⊢
      rw [hlen, copy_swap hoffs (by omega) hf, hm, BitVec.ofNat_toNat, BitVec.setWidth_eq]
    | false =>
      have hlen : (512 - al.firstOffs).toNat = 512 - al.firstOffs.toNat := by
        rw [BitVec.toNat_sub]
        show (2 ^ 64 - al.firstOffs.toNat + 512) % 2 ^ 64 = _
        omega
      simp only [if_true, Bool.and_false, Bool.false_eq_true, if_false]
      rw [hlen, copy_swap hoffs (by omega) hf, hm, BitVec.ofNat_toNat, BitVec.setWidth_eq]
  | false =>
    cases h2 : al.lastBlock b with
    | true =>
      obtain ⟨hm, hf⟩ := hbuf (by rw [h2, Bool.or_true])
      simp only [if_true, Bool.and_true, Bool.false_eq_true, if_false]
      have hcopy : (s.copy (.ext, dst) (.swap, 0) al.lastLen.toNat).mem .ext =
          (s.mem .ext).write dst al.lastLen.toNat fun i => f (0 + i) :=
        copy_swap rfl (by omega) hf
      rw [hcopy, hm, Nat.sub_zero, BitVec.add_zero]
    | false =>
      simp only [Bool.and_false, Bool.false_eq_true, if_false, Nat.sub_zero, Nat.zero_add]
      rw [hdirect (by rw [h1, h2, Bool.or_false]), BitVec.add_zero]

/-- Copying issues no transaction. -/
theorem copyBlock_rest (al : Align) (dst : U64) (b : ℕ) (s : Spi) :
    (copyBlock al dst b s).log = s.log ∧ (copyBlock al dst b s).pos = s.pos := by
  unfold copyBlock
  split_ifs <;> exact ⟨rfl, rfl⟩

theorem blockBuf_ne_crc (al : Align) (b : ℕ) (dst : U64) : (al.blockBuf b dst).1 ≠ .crc := by
  unfold Align.blockBuf
  split_ifs <;> exact Obj.noConfusion

/-- A block that is not accepted changes nothing but the memory it would go to. -/
theorem readBlock_piece (hdepth : 1 ≤ bus.rxDepth) (buf : U64) (al : Align) (b : ℕ)
    (hm : s.mem .ext = m) :
    Piece bus (readBlock bus buf al check b) (blockScan bus check)
      (fun s' => al.startOf b ≤ al.endOf b →
        s'.mem .ext = m.write (buf + BitVec.ofNat 64 (512 * b) + BitVec.ofNat 64 (al.startOf b))
          (al.endOf b - al.startOf b) fun i => bus.wire (s'.pos - 514 + (al.startOf b + i)))
      (fun s' => ∀ x, al.buffered b = true ∨ 512 ≤ (x - (buf + BitVec.ofNat 64 (512 * b))).toNat →
        s'.mem .ext x = m x) s := by
  refine ((awaitToken_piece hm).mono (fun _ _ h => h) fun s' h x _ => by rw [h]).seq
    tokenScan_functional fun s₁ _ hm₁ => ?_
  rw [← Scan.seq_skip_zero (L := dataScan bus check)]
  refine ((receiveBlock_piece hdepth (blockBuf_ne_crc _ _ _) s₁).mono (fun _ _ h => h) ?_).seq
    (fun _ _ _ h h' => h.2.trans h'.2.symm) ?_
  · intro s' hs' x hx
    obtain ⟨n, hn, f, hmem⟩ := hs'
    rw [hmem .ext (by decide)]
    unfold Align.blockBuf
    cases hbuf : al.buffered b with
    | true => rw [if_pos rfl, mem_store_of_ne s₁ n f (by decide), hm₁]
    | false =>
      rw [if_neg Bool.false_ne_true]
      rw [mem_store_self s₁ (.ext, _), Mem.write_frame, hm₁]
      exact hn.trans (hx.resolve_left (by rw [hbuf]; exact Bool.false_ne_true))
  · intro s₂ _ hkeep
    obtain ⟨hlog, hpos⟩ := copyBlock_rest al (buf + BitVec.ofNat 64 (512 * b)) b s₂
    refine Piece.modify hlog hpos fun hle => ?_
    rw [hpos]
    refine copyBlock_ext (f := fun i => bus.wire (s₂.pos - 514 + i)) _ hle (fun hbuf => ?_) ?_
    · have hswap : al.blockBuf b (buf + BitVec.ofNat 64 (512 * b)) = (.swap, 0) := if_pos hbuf
      rw [hswap] at hkeep
      refine ⟨?_, fun i hi => ?_⟩
      · rw [hkeep .ext (by decide), mem_store_of_ne s₁ 512 _ (by decide), hm₁]
      · have hload : s₂.load (.swap, 0) i = Spi.load _ (.swap, 0) i :=
          congrFun (hkeep .swap (by decide)) _
        rw [hload, load_store s₁ _ _ hi (by decide)]
    · intro hbuf
      have hext : al.blockBuf b (buf + BitVec.ofNat 64 (512 * b)) =
          (.ext, buf + BitVec.ofNat 64 (512 * b)) := if_neg (by rw [hbuf]; exact Bool.false_ne_true)
      rw [hkeep .ext (by decide), hext, ← hm₁]
      exact mem_store_self s₁ (.ext, _) 512 _

end Destination

/-! ## Blocks -/

section Blocks

variable {bus : Bus} {check : Bool} {buf block : U64} {al : Align} {s : Spi}

/-- The command for reading `len` blocks. -/
def readCmd (block len : U64) : U64 :=
  buildCmd (if len > 1 then 0x52 else 0x51) (block.setWidth 32)

theorem readCmd_opcode (block len : U64) :
    (cmdTxn (readCmd block len)).opcode = some (if len > 1 then 0x52 else 0x51) :=
  cmdTxn_opcode (isOpcode_ite (by decide) (by decide))

theorem readCmd_argument (block len : U64) :
    (cmdTxn (readCmd block len)).argument = (block.setWidth 32).toNat :=
  cmdTxn_argument (isOpcode_ite (by decide) (by decide))

theorem readBlocks_eq (h : al.len ≠ 0) :
    readBlocks bus buf block al check =
      (sdCmd bus (readCmd block al.len) .r1 (.rx, 0) true >>= fun _ =>
      Cmd.forStep al.len.toNat 1 (readBlock bus (buf - al.firstOffs) al check) al.len.toNat 0
        >>= fun _ => endRead bus al.len) :=
  if_neg h

variable (bus check) in
/-- What a read of `n` blocks accepts: a response, the blocks, and the response to CMD12 if there
is more than one. -/
def readScan (n : U64) : Scan :=
  (Scan.polled bus.wire noResponse 8).seq
    (((blockScan bus check).times n.toNat).seq
      (Scan.when (n > 1) ((Scan.skip 1).seq (busyScan bus))))

/-- Reading blocks, with an invariant `J` of the loop and a frame `F`. -/
theorem readBlocks_transfer {J : ℕ → Spi → Prop} {F : Spi → Prop} (hn : al.len ≠ 0)
    (h0 : ∀ s₁, s₁.mem .ext = s.mem .ext → s.pos ≤ s₁.pos → J 0 s₁)
    (hbody : ∀ b < al.len.toNat, ∀ s₁, J b s₁ →
      Piece bus (readBlock bus (buf - al.firstOffs) al check b) (blockScan bus check)
        (J (b + 1)) F s₁)
    (hF : ∀ s', s'.mem .ext = s.mem .ext → F s')
    (hend : ∀ s₁ s', J al.len.toNat s₁ → s'.mem .ext = s₁.mem .ext → F s') :
    Transfer bus (readCmd block al.len) (readBlocks bus buf block al check)
      (readScan bus check al.len)
      (fun s' => (∃ s₁, J al.len.toNat s₁ ∧ s'.mem .ext = s₁.mem .ext) ∧ Released s' ∧
        (al.len > 1 → ∃ t ∈ s'.log, t.Closes)) F s := by
  have hopen : Transfer bus (readCmd block al.len)
      (sdCmd bus (readCmd block al.len) .r1 (.rx, 0) true) _ _ _ s :=
    open_transfer bus _ (isOpcode_ite (by decide) (by decide)) (Eq.refl (s.mem .ext))
  rw [readBlocks_eq hn]
  refine Transfer.seq (hopen.mono (fun _ _ h => h) ?_) (Scan.polled_functional _ _ _) ?_
  · intro _ s' h
    obtain ⟨s₁, hsent, hfail, hm⟩ := h
    exact ⟨s₁, hsent, hfail, hF s' hm⟩
  intro s₁ hs₁
  refine (Piece.forStep blockScan_functional hbody (h0 s₁ hs₁.1 hs₁.2)).seq
    (blockScan_functional.times _) fun s₂ _ hs₂ => ?_
  refine (endRead_piece rfl).mono ?_ fun s' hm => hend s₂ s' hs₂ hm
  exact fun s' _ h => ⟨⟨s₂, hs₂, h.1⟩, h.2⟩

end Blocks

end Cheshire.SpiSdcard
