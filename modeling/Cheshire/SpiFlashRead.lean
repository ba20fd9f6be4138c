import Cheshire.SpiFlash

/-!
# Reading the SPI flash: `spi_s25fs512s.c`

A read goes through the flash in chunks of at most one receive FIFO, each of them a transaction of
the SPI host library. The library is not part of the repository: a transaction fails or succeeds,
and either way leaves some bytes in the buffer it is given (`Dif`). What is relied on is that a
successful read leaves the flash's bytes there (`Dif.ReadsFlash`).

**Theorem (`singleRead_right`).** The transactions read the range piece by piece; either all of
them succeed and the buffer holds the range, or the first that fails is the last, and its code is
returned. Nothing is written outside the buffer.
-/

namespace Cheshire.SpiFlash

open Lib

/-! ## Transactions that receive into memory -/

/-- A transaction, where it receives to, and its result. -/
structure Transfer where
  segs : List Segment
  buf : U64
  result : CInt

/-- The result of a transaction, and the bytes that it stores in its buffer. -/
structure Outcome where
  result : CInt
  rx : ℕ → Option Byte

/-- `dif_spi_host_transaction`, which may depend on the transactions so far. -/
abbrev Dif := List Transfer → List Segment → Outcome

/-- A successful read stores the bytes of the flash. -/
def Dif.ReadsFlash (dif : Dif) (flash : ℕ → Byte) : Prop :=
  ∀ past a n, (dif past [.opcode 0x13, .address a, .rx n]).result = 0 →
    ∀ i < n, (dif past [.opcode 0x13, .address a, .rx n]).rx i = some (flash (a.toNat + i))

structure Host where
  mem : Mem
  past : List Transfer

/-- Commands that are left with a nonzero code. -/
abbrev ReadM := Cmd CInt Host

def Segment.rxLength : Segment → ℕ
  | .rx n => n
  | _ => 0

variable (dif : Dif) (rxDepth : ℕ)

/-- `CHECK_CALL` of a transaction. -/
def transfer (segs : List Segment) (buf : U64) : ReadM Unit := fun h =>
  let o := dif h.past segs
  let n := (segs.map Segment.rxLength).sum
  let mem := h.mem.write buf n fun i => (o.rx i).getD (h.mem (buf + BitVec.ofNat 64 i))
  let h' : Host := ⟨mem, h.past ++ [⟨segs, buf, o.result⟩]⟩
  if o.result = 0 then .ok () h' else .error o.result h'

/-! ## The driver -/

/-- `__spi_s25fs512s_single_read_chunk` -/
def singleReadChunk (buf addr len : U64) : ReadM Unit :=
  transfer dif [.opcode 0x13, .address (addr.setWidth 32), .rx len.toNat] buf

/-- `spi_s25fs512s_single_read`. The counter `offs` is a natural number, where that of the source
has 64 bits: that one does not wrap as long as `len + 4 * rxDepth` is at most `2 ^ 64`. The flash's
addresses bound `len` by `2 ^ 32`, and four times the FIFO's depth is an `int`. -/
def singleRead (spiFreq buf addr len : U64) : ReadM Unit :=
  if spiFreq < 50 * 1000 * 1000 then
    Cmd.forStep len.toNat (4 * rxDepth) (fun offs =>
      let chunkLen := BitVec.ofNat 64 (min (4 * rxDepth) (len.toNat - offs))
      singleReadChunk dif (buf + BitVec.ofNat 64 offs) (addr + BitVec.ofNat 64 offs) chunkLen)
      len.toNat 0
  else throw 0x15

/-! ## What a read does -/

/-- The transfer reads `n` bytes, `k` bytes into the range and into the buffer. -/
def Transfer.Reads (e : Transfer) (buf addr : U64) (k n : ℕ) : Prop :=
  ∃ a : BitVec 32, e.segs = [.opcode 0x13, .address a, .rx n] ∧ a.toNat = addr.toNat + k ∧
    e.buf = buf + BitVec.ofNat 64 k

/-- The transfers read the first `k` bytes, one piece after the other, at most `most` at once. -/
inductive Covers (buf addr : U64) (most : ℕ) : List Transfer → ℕ → Prop
  | nil : Covers buf addr most [] 0
  | concat {past : List Transfer} {e : Transfer} {k n : ℕ} : Covers buf addr most past k →
      1 ≤ n → n ≤ most → e.Reads buf addr k n → Covers buf addr most (past ++ [e]) (k + n)

def pastOf : EStateM.Result CInt Host Unit → List Transfer
  | .ok _ h | .error _ h => h.past

def memOf : EStateM.Result CInt Host Unit → Mem
  | .ok _ h | .error _ h => h.mem

/-- The value the call returns. -/
def codeOf : EStateM.Result CInt Host Unit → CInt
  | .ok _ _ => 0
  | .error c _ => c

/-- The transfers of a read of `len` bytes, what it leaves in memory, and what it returns. -/
structure ReadRight (flash : ℕ → Byte) (most : ℕ) (mem : Mem) (buf addr len : U64)
    (r : EStateM.Result CInt Host Unit) : Prop where
  covers : ∃ k ≤ len.toNat, Covers buf addr most (pastOf r) k
  zero_iff : codeOf r = 0 ↔ ∀ e ∈ pastOf r, e.result = 0
  all : codeOf r = 0 → Covers buf addr most (pastOf r) len.toNat
  data : codeOf r = 0 →
    ∀ i < len.toNat, memOf r (buf + BitVec.ofNat 64 i) = flash (addr.toNat + i)
  stops : codeOf r ≠ 0 → ∃ past e, pastOf r = past ++ [e] ∧ (∀ x ∈ past, x.result = 0) ∧
    codeOf r = e.result
  frame : ∀ x, len.toNat ≤ (x - buf).toNat → memOf r x = mem x

section Proof

variable {dif rxDepth} {flash : ℕ → Byte} {mem : Mem} {buf addr len : U64}

/-- Between two chunks: `k` bytes are read. -/
structure ReadTo (flash : ℕ → Byte) (most : ℕ) (mem : Mem) (buf addr : U64) (k : ℕ) (h : Host) :
    Prop where
  covers : Covers buf addr most h.past k
  good : ∀ e ∈ h.past, e.result = 0
  mem : h.mem = mem.write buf k fun i => flash (addr.toNat + i)

/-- After a chunk that failed. -/
structure ReadStopped (most : ℕ) (mem : Mem) (buf addr : U64) (n : ℕ) (c : CInt) (h : Host) :
    Prop where
  covers : ∃ k ≤ n, Covers buf addr most h.past k
  last : ∃ past e, h.past = past ++ [e] ∧ (∀ x ∈ past, x.result = 0) ∧ e.result = c
  code : c ≠ 0
  frame : ∀ x, n ≤ (x - buf).toNat → h.mem x = mem x

theorem ReadStopped.weaken {most n n' : ℕ} {c : CInt} {h : Host} (hn : n ≤ n')
    (hs : ReadStopped most mem buf addr n c h) : ReadStopped most mem buf addr n' c h := by
  obtain ⟨⟨k, hk, hcovers⟩, hlast, hc, hframe⟩ := hs
  exact ⟨⟨k, hk.trans hn, hcovers⟩, hlast, hc, fun x hx => hframe x (hn.trans hx)⟩

theorem chunkAddress_toNat {k : ℕ} (h : addr.toNat + k < 2 ^ 32) :
    ((addr + BitVec.ofNat 64 k).setWidth 32).toNat = addr.toNat + k := by
  simp only [BitVec.toNat_setWidth, BitVec.toNat_add, BitVec.toNat_ofNat]
  omega

/-- The bytes `k`, ..., `k + n - 1` of the buffer are in the buffer. -/
theorem write_chunk_frame {m : Mem} {f : ℕ → Byte} {x : U64} {k n : ℕ} (hk : k < 2 ^ 64)
    (hx : k + n ≤ (x - buf).toNat) : m.write (buf + BitVec.ofNat 64 k) n f x = m x := by
  have hlt := (x - buf).isLt
  refine Mem.write_frame ?_
  have hsub : x - (buf + BitVec.ofNat 64 k) = x - buf - BitVec.ofNat 64 k := by
    bv_omega
  rw [hsub, BitVec.toNat_sub, BitVec.toNat_ofNat]
  omega

/-- One chunk. -/
theorem singleReadChunk_ends (hdif : dif.ReadsFlash flash) {most k n : ℕ} (hn : 1 ≤ n)
    (hmost : n ≤ most) (hend : addr.toNat + (k + n) ≤ 2 ^ 32) :
    Cmd.Triple (ReadTo flash most mem buf addr k)
      (singleReadChunk dif (buf + BitVec.ofNat 64 k) (addr + BitVec.ofNat 64 k)
        (BitVec.ofNat 64 n))
      (fun _ => ReadTo flash most mem buf addr (k + n))
      (ReadStopped most mem buf addr (k + n)) := by
  intro h ⟨hcovers, hgood, hmem⟩
  have hlen : (BitVec.ofNat 64 n).toNat = n := by
    rw [BitVec.toNat_ofNat]
    omega
  have haddr : ((addr + BitVec.ofNat 64 k).setWidth 32).toNat = addr.toNat + k :=
    chunkAddress_toNat (by omega)
  unfold singleReadChunk transfer
  rw [hlen]
  generalize (addr + BitVec.ofNat 64 k).setWidth 32 = a at haddr ⊢
  have hsum : ([.opcode 0x13, .address a, .rx n].map Segment.rxLength).sum = n := by
    simp [Segment.rxLength]
  rw [hsum]
  have hcovers' (c : CInt) := hcovers.concat hn hmost
    (e := ⟨[.opcode 0x13, .address a, .rx n], buf + BitVec.ofNat 64 k, c⟩) ⟨a, rfl, haddr, rfl⟩
  by_cases hzero : (dif h.past [.opcode 0x13, .address a, .rx n]).result = 0
  · rw [if_pos hzero]
    refine ⟨hcovers' _, ?_, ?_⟩
    · intro e he
      rcases List.mem_append.1 he with he | he
      · exact hgood e he
      · rw [List.mem_singleton.1 he]
        exact hzero
    · dsimp only
      rw [hmem, ← Mem.write_append (by omega)]
      refine Mem.write_congr fun i hi => ?_
      rw [hdif _ _ _ hzero i hi, haddr, Nat.add_assoc]
      rfl
  · rw [if_neg hzero]
    refine ⟨⟨k + n, le_rfl, hcovers' _⟩, ⟨_, _, rfl, hgood, rfl⟩, hzero, ?_⟩
    intro x hx
    dsimp only
    rw [write_chunk_frame (by omega) hx, hmem, Mem.write_frame (by omega)]

/-- **Main result.** A read does what it says, whichever transactions fail. -/
theorem singleRead_right (hdif : dif.ReadsFlash flash) (hdepth : 1 ≤ rxDepth) {spiFreq : U64}
    (hfreq : spiFreq < 50 * 1000 * 1000) (hend : addr.toNat + len.toNat ≤ 2 ^ 32) (mem : Mem) :
    ReadRight flash (4 * rxDepth) mem buf addr len
      (singleRead dif rxDepth spiFreq buf addr len ⟨mem, []⟩) := by
  have hends : Cmd.Ends (singleRead dif rxDepth spiFreq buf addr len ⟨mem, []⟩)
      (fun _ => ReadTo flash (4 * rxDepth) mem buf addr len.toNat)
      (ReadStopped (4 * rxDepth) mem buf addr len.toNat) := by
    unfold singleRead
    rw [if_pos hfreq]
    refine Cmd.Triple.forStep (by omega) (fun offs hoffs => ?_) _ _ le_rfl (Nat.zero_le _) _
      ⟨.nil, fun e he => absurd he List.not_mem_nil, Mem.write_zero.symm⟩
    have hchunk := @singleReadChunk_ends _ _ mem buf addr hdif (4 * rxDepth) offs
      (min (4 * rxDepth) (len.toNat - offs)) (by omega) (min_le_left _ _) (by omega)
    have hnext : offs + min (4 * rxDepth) (len.toNat - offs) =
        min len.toNat (offs + 4 * rxDepth) := by
      omega
    rw [hnext] at hchunk
    intro h hh
    exact (hchunk h hh).mono (fun _ _ h => h) fun c h hstop =>
      hstop.weaken (min_le_left _ _)
  cases hr : singleRead dif rxDepth spiFreq buf addr len ⟨mem, []⟩ with
  | ok u h =>
    rw [hr] at hends
    obtain ⟨hcovers, hgood, hmem⟩ := hends
    refine ⟨⟨_, le_rfl, hcovers⟩, ⟨fun _ => hgood, fun _ => rfl⟩, fun _ => hcovers, ?_,
      fun hne => absurd rfl hne, ?_⟩
    · intro _ i hi
      show h.mem _ = _
      rw [hmem, Mem.write_read hi len.isLt.le]
    · intro x hx
      show h.mem x = _
      rw [hmem, Mem.write_frame hx]
  | error c h =>
    rw [hr] at hends
    obtain ⟨hcovers, ⟨past, e, hpast, hgood, hlast⟩, hc, hframe⟩ := hends
    refine ⟨hcovers, ⟨fun hz => absurd hz hc, fun hall => ?_⟩, fun hz => absurd hz hc,
      fun hz => absurd hz hc, fun _ => ⟨past, e, hpast, hgood, hlast.symm⟩, hframe⟩
    rw [← hlast]
    refine hall e ?_
    show e ∈ h.past
    rw [hpast]
    exact List.mem_append_right _ (List.mem_singleton_self e)

end Proof

/-- A flash that holds the low byte of each address, and whose transaction number `bad` fails
after the first byte. -/
def flakyDif (bad : ℕ) : Dif
  | past, [.opcode 0x13, .address a, .rx n] =>
    ⟨if past.length = bad then 9 else 0, fun i =>
      if i < (if past.length = bad then 1 else n) then some (BitVec.ofNat 8 (a.toNat + i))
      else none⟩
  | _, _ => ⟨1, fun _ => none⟩

theorem flakyDif_readsFlash (bad : ℕ) : (flakyDif bad).ReadsFlash (BitVec.ofNat 8) := by
  intro past a n hzero i hi
  have hne : past.length ≠ bad := by
    intro he
    simp [flakyDif, he] at hzero
  simp [flakyDif, hne, hi]

/-- 11 bytes through a FIFO of one word: with all three transactions, and with the second one
failing. -/
theorem singleRead_right_flaky :
    (ReadRight (BitVec.ofNat 8) (4 * 1) (fun _ => 0) 0x80000000 0x1fe 11
      (singleRead (flakyDif 3) 1 25000000 0x80000000 0x1fe 11 ⟨fun _ => 0, []⟩) ∧
      codeOf (singleRead (flakyDif 3) 1 25000000 0x80000000 0x1fe 11 ⟨fun _ => 0, []⟩) = 0) ∧
    (ReadRight (BitVec.ofNat 8) (4 * 1) (fun _ => 0) 0x80000000 0x1fe 11
      (singleRead (flakyDif 1) 1 25000000 0x80000000 0x1fe 11 ⟨fun _ => 0, []⟩) ∧
      codeOf (singleRead (flakyDif 1) 1 25000000 0x80000000 0x1fe 11 ⟨fun _ => 0, []⟩) = 9) :=
  ⟨⟨singleRead_right (flakyDif_readsFlash 3) le_rfl (by decide) (by decide) _, by decide⟩,
    ⟨singleRead_right (flakyDif_readsFlash 1) le_rfl (by decide) (by decide) _, by decide⟩⟩

end Cheshire.SpiFlash
