import Cheshire.Sections
import Cheshire.UartDebugProof
import Mathlib.Data.BitVec

/-!
# Preloading an ELF file over the UART: `uart_debug_elf_preload`

The host cuts each section into blocks of `UartBurstBytes` and writes them with `uart_debug_rw`.
The loop over a section also runs at its end: a section of whole blocks is followed by a block
without bytes.

**Theorem (`preload_serves`).** In every run of host and server, all blocks are acknowledged, and
at the end the sections are in memory, nothing else has changed, and the server waits for the next
command. The bound on the blocks keeps the counter of the loop over a block, an `int`, from
becoming negative.
-/

namespace Cheshire.UartDebug

open Lib SlinkPreload SlinkPreload.Section

/-! ## `uart_debug_elf_preload` -/

section Host

variable (uartBurstBytes : BitVec 32) (s : Section)

/-- `bf[k]` for an index that may be negative. -/
def bfItem (k : ℤ) : Byte := if k < 0 then 0 else s.byteAt k.toNat

/-- The loop over a block at offset `i`. The counter `b` is an `int`: it is compared with
`UartBurstBytes` as an unsigned number, and added to `i` as a signed one. -/
def blockLoop (i : ℕ) : ℕ → BitVec 32 → Option (List Byte)
  | 0, _ => none
  | fuel + 1, b =>
    if b < uartBurstBytes then
      if s.secLen ≤ i + b.toInt then return []
      else do
        let bytes ← blockLoop i fuel (b + 1)
        return bfItem s (i + b.toInt) :: bytes
    else return []

/-- The loop over a section, for fewer than `n` turns. -/
def sectionLoop (fuel : ℕ) : ℕ → ℕ → Option (List Call)
  | 0, _ => none
  | n + 1, i =>
    if i ≤ s.secLen then do
      let bytes ← blockLoop uartBurstBytes s i fuel 0
      let rest ← sectionLoop fuel n (i + uartBurstBytes.toNat)
      return ⟨s.base + BitVec.ofNat 64 i, 0, bytes⟩ :: rest
    else return []

/-- The calls of `uart_debug_rw` for the whole file, section by section. -/
def uartDebugElfPreload (fuel : ℕ) : List Section → Option (List Call)
  | [] => some []
  | s :: secs => do
    let calls ← sectionLoop uartBurstBytes s fuel fuel 0
    let rest ← uartDebugElfPreload fuel secs
    return calls ++ rest

end Host

/-! ## One block -/

section Block

variable {burst b : BitVec 32} {s : Section} {i fuel : ℕ}

theorem toInt_of_lt (h : b.toNat < 2 ^ 31) : b.toInt = b.toNat :=
  BitVec.toInt_eq_toNat_of_lt (by omega)

/-- One turn of the loop inside the section. -/
theorem blockLoop_push (hb : b.toNat < burst.toNat) (hpos : b.toNat < 2 ^ 31)
    (hi : i + b.toNat < s.secLen) : blockLoop burst s i (fuel + 1) b =
      (blockLoop burst s i fuel (b + 1)).map (s.byteAt (i + b.toNat) :: ·) := by
  have hitem : bfItem s (i + b.toInt) = s.byteAt (i + b.toNat) := by
    rw [toInt_of_lt hpos, bfItem, if_neg (by omega)]
    rfl
  rw [blockLoop, if_pos (BitVec.lt_def.2 hb), hitem, toInt_of_lt hpos, if_neg (by omega)]
  cases blockLoop burst s i fuel (b + 1) <;> rfl

/-- The bytes of the section from offset `i` on. -/
theorem drop_take_succ {n : ℕ} (h : i < s.secLen) :
    (s.bf.drop i).take (n + 1) = s.byteAt i :: (s.bf.drop (i + 1)).take n := by
  have hlt : i < s.bf.length := h
  rw [List.drop_eq_getElem_cons hlt, List.take_succ_cons, byteAt, List.getD_eq_getElem _ _ hlt]

/-- Turns of the loop inside the section. -/
theorem blockLoop_pushes (n : ℕ) (hb : b.toNat + n ≤ burst.toNat) (hpos : b.toNat + n ≤ 2 ^ 31)
    (hi : i + b.toNat + n ≤ s.secLen) : blockLoop burst s i (fuel + n) b =
      (blockLoop burst s i fuel (b + BitVec.ofNat 32 n)).map
        ((s.bf.drop (i + b.toNat)).take n ++ ·) := by
  induction n generalizing b with
  | zero =>
    rw [List.take_zero]
    simp
  | succ n ih =>
    have hone : (b + 1).toNat = b.toNat + 1 := toNat_succ (n := 2 ^ 31) (by omega) (by decide)
    have hsum : b + 1 + BitVec.ofNat 32 n = b + BitVec.ofNat 32 (n + 1) := by
      rw [BitVec.add_assoc, Nat.add_comm n, BitVec.ofNat_add]
      rfl
    rw [← Nat.add_assoc fuel, blockLoop_push (by omega) (by omega) (by omega),
      ih (by omega) (by omega) (by omega), hsum, hone, Option.map_map, drop_take_succ (by omega)]
    rfl

/-- A block is the next bytes of the section. -/
theorem blockLoop_eq (hi : i ≤ s.secLen) (hsmall : burst.toNat ≤ 2 ^ 31 ∨ s.secLen < 2 ^ 31)
    (hfuel : burst.toNat < fuel) :
    blockLoop burst s i fuel 0 = some ((s.bf.drop i).take burst.toNat) := by
  obtain ⟨n, hn⟩ : ∃ n, n = min burst.toNat (s.secLen - i) := ⟨_, rfl⟩
  obtain ⟨fuel, rfl⟩ := Nat.exists_eq_add_of_le' (show n + 1 ≤ fuel by omega)
  have hlt := burst.isLt
  have hval : (BitVec.ofNat 32 n).toNat = n := by
    rw [BitVec.toNat_ofNat]
    omega
  have hzero : (0 : BitVec 32).toNat = 0 := rfl
  have hend : blockLoop burst s i (fuel + 1) (0 + BitVec.ofNat 32 n) = some [] := by
    rw [show 0 + BitVec.ofNat 32 n = BitVec.ofNat 32 n from BitVec.zero_add _, blockLoop]
    by_cases hburst : BitVec.ofNat 32 n < burst
    · have hshort := BitVec.lt_def.1 hburst
      rw [if_pos hburst, toInt_of_lt (by omega), if_pos (by omega)]
      rfl
    · rw [if_neg hburst]
      rfl
  have htake : (s.bf.drop i).take n = (s.bf.drop i).take burst.toNat := by
    rw [List.take_eq_take_iff, List.length_drop, hn]
    unfold secLen
    omega
  rw [show fuel + (n + 1) = fuel + 1 + n by omega, blockLoop_pushes n (by omega) (by omega)
    (by omega), hend, hzero, Nat.add_zero, htake, Option.map_some, List.append_nil]

end Block

/-! ## One section -/

section Blocks

variable {burst : BitVec 32} {s : Section}

/-- `n` blocks, from offset `i` on. -/
def blocks (burst : ℕ) (s : Section) : ℕ → ℕ → List Call
  | 0, _ => []
  | n + 1, i =>
    ⟨s.base + BitVec.ofNat 64 i, 0, (s.bf.drop i).take burst⟩ :: blocks burst s n (i + burst)

/-- The loop over a section runs for as long as its counter has not passed the length. -/
theorem sectionLoop_eq {n k fuel i : ℕ} (hburst : burst ≠ 0)
    (hsmall : burst.toNat ≤ 2 ^ 31 ∨ s.secLen < 2 ^ 31) (hfuel : burst.toNat < fuel)
    (hlt : s.secLen < i + n * burst.toNat) (hle : i + n * burst.toNat ≤ s.secLen + burst.toNat)
    (hk : n < k) : sectionLoop burst s fuel k i = some (blocks burst.toNat s n i) := by
  have hpos : 0 < burst.toNat := Nat.pos_of_ne_zero fun h => hburst (BitVec.eq_of_toNat_eq h)
  induction n generalizing k i with
  | zero =>
    obtain ⟨k, rfl⟩ := Nat.exists_eq_add_of_le' (show 1 ≤ k by omega)
    rw [sectionLoop, if_neg (by omega)]
    rfl
  | succ n ih =>
    obtain ⟨k, rfl⟩ := Nat.exists_eq_add_of_le' (show 1 ≤ k by omega)
    rw [Nat.succ_mul] at hlt hle
    have hi : i ≤ s.secLen := by omega
    rw [sectionLoop, if_pos hi, blockLoop_eq hi hsmall hfuel,
      ih (by omega) (by omega) (by omega)]
    rfl

/-- How many blocks a section has, the last of them possibly empty. -/
def blockCount (burst : ℕ) (s : Section) : ℕ := s.secLen / burst + 1

/-- What `uart_debug_elf_preload` calls for a section. -/
def sectionCalls (burst : ℕ) (s : Section) : List Call := blocks burst s (blockCount burst s) 0

theorem sectionLoop_calls {fuel : ℕ} (hburst : burst ≠ 0)
    (hsmall : burst.toNat ≤ 2 ^ 31 ∨ s.secLen < 2 ^ 31)
    (hfuel : burst.toNat + s.secLen + 1 < fuel) :
    sectionLoop burst s fuel fuel 0 = some (sectionCalls burst.toNat s) := by
  have hpos : 0 < burst.toNat := Nat.pos_of_ne_zero fun h => hburst (BitVec.eq_of_toNat_eq h)
  have hdiv := Nat.div_add_mod s.secLen burst.toNat
  have hmod := Nat.mod_lt s.secLen hpos
  have hle := Nat.div_le_self s.secLen burst.toNat
  rw [Nat.mul_comm] at hdiv
  refine sectionLoop_eq hburst hsmall (by omega) ?_ ?_ ?_
  · rw [blockCount, Nat.succ_mul]
    omega
  · rw [blockCount, Nat.succ_mul]
    omega
  · unfold blockCount
    omega

/-- The blocks are writes that the host can send. -/
theorem blocks_sent {n i : ℕ} (hsmall : burst.toNat ≤ 2 ^ 31 ∨ s.secLen < 2 ^ 31) :
    ∀ c ∈ blocks burst.toNat s n i, c.Sent := by
  induction n generalizing i with
  | zero => exact fun c hc => absurd hc List.not_mem_nil
  | succ n ih =>
    refine List.forall_mem_cons.2 ⟨Call.sent_of_le rfl ?_, ih⟩
    rw [List.length_take, List.length_drop]
    unfold secLen at hsmall
    omega

/-- The blocks store the bytes of the section one after the other. -/
theorem blocks_store {n i burst : ℕ} (hlen : s.secLen < 2 ^ 63) (hlt : s.secLen < i + n * burst)
    (m : Mem) : memAfter m (blocks burst s n i) =
      m.write (s.base + BitVec.ofNat 64 i) (s.secLen - i) fun j => s.byteAt (i + j) := by
  induction n generalizing i m with
  | zero =>
    rw [show s.secLen - i = 0 by omega, Mem.write_zero]
    rfl
  | succ n ih =>
    rw [Nat.succ_mul] at hlt
    have hrest := ih (i := i + burst) (by omega) (m.write (s.base + BitVec.ofNat 64 i)
      ((s.bf.drop i).take burst).length fun j => ((s.bf.drop i).take burst).getD j 0)
    refine hrest.trans ?_
    have hcount : ((s.bf.drop i).take burst).length = min burst (s.secLen - i) := by
      rw [List.length_take, List.length_drop]
      rfl
    have hfirst : (m.write (s.base + BitVec.ofNat 64 i) (min burst (s.secLen - i))
        fun j => ((s.bf.drop i).take burst).getD j 0) =
        m.write (s.base + BitVec.ofNat 64 i) (min burst (s.secLen - i))
          fun j => s.byteAt (i + j) := by
      refine Mem.write_congr fun j hj => ?_
      rw [byteAt, List.getD_eq_getElem?_getD, List.getD_eq_getElem?_getD,
        List.getElem?_take_of_lt (by omega), List.getElem?_drop]
    rw [hcount, hfirst]
    by_cases hfull : i + burst ≤ s.secLen
    · have hmin : min burst (s.secLen - i) = burst := by omega
      have hsum : burst + (s.secLen - (i + burst)) = s.secLen - i := by omega
      have happend := Mem.write_append (m := m) (a := s.base + BitVec.ofNat 64 i) (n := burst)
        (k := s.secLen - (i + burst)) (f := fun j => s.byteAt (i + j)) (by omega)
      rw [hsum, BitVec.add_assoc, ← BitVec.ofNat_add] at happend
      simp only [← Nat.add_assoc] at happend
      rw [hmin]
      exact happend
    · rw [show s.secLen - (i + burst) = 0 by omega, Mem.write_zero,
        show min burst (s.secLen - i) = s.secLen - i by omega]

theorem sectionCalls_store {burst : ℕ} (hburst : 0 < burst) (hlen : s.secLen < 2 ^ 63) (m : Mem) :
    memAfter m (sectionCalls burst s) = s.store m := by
  have hlt := Nat.lt_mul_div_succ s.secLen hburst
  rw [Nat.mul_comm] at hlt
  rw [sectionCalls, blocks_store hlen (by rw [blockCount]; omega)]
  simp only [Nat.zero_add, Nat.sub_zero]
  rw [show s.base + BitVec.ofNat 64 0 = s.base from BitVec.add_zero _]
  rfl

end Blocks

/-! ## The whole file -/

section File

variable {burst : BitVec 32} {secs : List Section} {m : Mem}

theorem uartDebugElfPreload_eq {fuel : ℕ} (hburst : burst ≠ 0)
    (hsmall : burst.toNat ≤ 2 ^ 31 ∨ ∀ s ∈ secs, s.secLen < 2 ^ 31)
    (hfuel : burst.toNat + (secs.map secLen).sum + 2 ≤ fuel) :
    uartDebugElfPreload burst fuel secs = some (secs.flatMap (sectionCalls burst.toNat)) := by
  induction secs with
  | nil => rfl
  | cons s secs ih =>
    rw [List.map_cons, List.sum_cons] at hfuel
    have hfirst : sectionLoop burst s fuel fuel 0 = some (sectionCalls burst.toNat s) :=
      sectionLoop_calls hburst (hsmall.imp_right fun h => h s List.mem_cons_self) (by omega)
    have hrest := ih (hsmall.imp_right fun h t ht => h t (List.mem_cons_of_mem s ht)) (by omega)
    rw [uartDebugElfPreload, hfirst, hrest]
    rfl

theorem file_sent (hsmall : burst.toNat ≤ 2 ^ 31 ∨ ∀ s ∈ secs, s.secLen < 2 ^ 31) :
    ∀ c ∈ secs.flatMap (sectionCalls burst.toNat), c.Sent := by
  intro c hc
  obtain ⟨s, hs, hcs⟩ := List.mem_flatMap.1 hc
  exact blocks_sent (hsmall.imp_right fun h => h s hs) c hcs

/-- The calls store the sections. -/
theorem file_store (hburst : burst ≠ 0) (hlen : ∀ s ∈ secs, s.secLen < 2 ^ 63) (m : Mem) :
    memAfter m (secs.flatMap (sectionCalls burst.toNat)) = loaded secs m := by
  have hpos : 0 < burst.toNat := Nat.pos_of_ne_zero fun h => hburst (BitVec.eq_of_toNat_eq h)
  induction secs generalizing m with
  | nil => rfl
  | cons s secs ih =>
    have hfirst := sectionCalls_store hpos (hlen s List.mem_cons_self) m
    have hrest := ih (fun t ht => hlen t (List.mem_cons_of_mem s ht)) (s.store m)
    rw [← hfirst] at hrest
    rw [List.flatMap_cons, memAfter, List.foldl_append]
    exact hrest.trans (by rw [hfirst]; rfl)

/-- What the preload should do in every run: the calls are served, and at their end the sections
are in memory, nothing else has changed, and the server waits for a command. -/
structure Preloaded (invoke : U64 → Mem → BitVec 32 × Mem) (m : Mem) (secs : List Section)
    (calls : List Call) : Prop where
  served : Served invoke m calls
  bytes : ∀ s, (sessions invoke m calls).Reachable s → s.left.pc = .done →
    ∀ t ∈ secs, ∀ x, t.Has x → s.right.mem x = t.byteAt (t.offset x)
  frame : ∀ s, (sessions invoke m calls).Reachable s → s.left.pc = .done →
    ∀ x, (∀ t ∈ secs, ¬t.Has x) → s.right.mem x = m x
  inStep : ∀ s, (sessions invoke m calls).Reachable s → s.left.pc = .done → s.right.pc = .cmd

/-- **Main result.** Unless a block can have more than `2 ^ 31` bytes, every run preloads the
sections. -/
theorem preload_serves (burst : BitVec 32) (hburst : burst ≠ 0) (secs : List Section)
    (hlen : ∀ s ∈ secs, s.secLen < 2 ^ 63) (hapart : secs.Pairwise Apart)
    (hsmall : burst.toNat ≤ 2 ^ 31 ∨ ∀ s ∈ secs, s.secLen < 2 ^ 31)
    (invoke : U64 → Mem → BitVec 32 × Mem) (m : Mem) :
    ∃ calls, (∃ n, ∀ fuel ≥ n, uartDebugElfPreload burst fuel secs = some calls) ∧
      Preloaded invoke m secs calls := by
  have hsent := file_sent hsmall
  have hmem := file_store hburst hlen m
  refine ⟨_, ⟨_, fun _ hfuel => uartDebugElfPreload_eq hburst hsmall hfuel⟩,
    served_of_sent invoke m hsent, fun s hs hdone t ht x hx => ?_, fun s hs hdone x hx => ?_,
    fun s hs hdone => ?_⟩
  · rw [sessions_end invoke m hsent hs (Or.inl hdone), hmem]
    exact loaded_of_has hapart ht hx m
  · rw [sessions_end invoke m hsent hs (Or.inl hdone), hmem]
    exact loaded_frame hx m
  · rw [sessions_end invoke m hsent hs (Or.inl hdone)]

/-- Two neighbours in blocks of four bytes: one of two blocks and an empty one, one of a byte. -/
theorem preload_serves_neighbours :
    ∃ calls, (∃ n, ∀ fuel ≥ n, uartDebugElfPreload 4
      fuel [⟨0x80000008, [9]⟩, ⟨0x80000000, [1, 2, 3, 4, 5, 6, 7, 8]⟩] = some calls) ∧
      Preloaded noCode (fun _ => 0) [⟨0x80000008, [9]⟩, ⟨0x80000000, [1, 2, 3, 4, 5, 6, 7, 8]⟩]
        calls :=
  preload_serves 4 (by decide) _ (by decide)
    (List.pairwise_pair.2 (apart_of_le (by decide) (by decide)).symm) (Or.inl (by decide)) _ _

end File

/-! ## A block of more than 2 GiB -/

section Large

variable {s : Section}

/-- The counter becomes negative at the end of the section, so the loop adds a byte. -/
theorem blockLoop_large (hlen : s.secLen = 2 ^ 31) {fuel : ℕ} (hfuel : 2 ^ 31 + 2 ≤ fuel) :
    blockLoop 0x80000001 s 0 fuel 0 = some (s.bf ++ [0]) := by
  obtain ⟨fuel, rfl⟩ := Nat.exists_eq_add_of_le' hfuel
  have hbf : s.bf.length = 2 ^ 31 := hlen
  have hpushes : blockLoop 0x80000001 s 0 (fuel + 2 + 2 ^ 31) 0 = _ :=
    blockLoop_pushes (2 ^ 31) (by decide) (by decide) (by rw [hlen]; decide)
  have hlast : blockLoop 0x80000001 s 0 (fuel + 2) 0x80000000 = some [0] := by
    have hend : blockLoop 0x80000001 s 0 (fuel + 1) 0x80000001 = some [] := if_neg (by decide)
    have hneg : (0x80000000 : BitVec 32).toInt = -2 ^ 31 := by decide
    rw [blockLoop, if_pos (by decide), hneg, if_neg (by rw [hlen]; decide)]
    show (blockLoop 0x80000001 s 0 (fuel + 1) 0x80000001).bind _ = _
    rw [hend]
    rfl
  have hstart : (0 : BitVec 32) + BitVec.ofNat 32 (2 ^ 31) = 0x80000000 := by decide
  have hdrop : 0 + (0 : BitVec 32).toNat = 0 := rfl
  rw [hstart, hlast, hdrop, List.drop_zero, Option.map_some] at hpushes
  rw [show fuel + (2 ^ 31 + 2) = fuel + 2 + 2 ^ 31 by omega, hpushes,
    List.take_of_length_le hbf.le]

/-- The call for a section of 2 GiB. -/
def largeCall (s : Section) : Call := ⟨s.base + BitVec.ofNat 64 0, 0, s.bf ++ [0]⟩

theorem uartDebugElfPreload_large (hlen : s.secLen = 2 ^ 31) {fuel : ℕ}
    (hfuel : 2 ^ 31 + 2 ≤ fuel) :
    uartDebugElfPreload 0x80000001 fuel [s] = some [largeCall s] := by
  have hblock := blockLoop_large hlen hfuel
  obtain ⟨fuel, rfl⟩ := Nat.exists_eq_add_of_le' hfuel
  have hsec : sectionLoop 0x80000001 s (fuel + (2 ^ 31 + 2)) (fuel + (2 ^ 31 + 2)) 0 =
      some [largeCall s] := by
    have hburst : (0x80000001 : BitVec 32).toNat = 2 ^ 31 + 1 := by decide
    rw [← Nat.add_assoc fuel (2 ^ 31 + 1) 1] at hblock ⊢
    rw [sectionLoop, if_pos (Nat.zero_le _), hblock, ← Nat.add_assoc fuel (2 ^ 31) 1, sectionLoop,
      hburst, hlen, if_neg (by omega)]
    rfl
  rw [uartDebugElfPreload, hsec]
  rfl

theorem largeCall_length (s : Section) : (largeCall s).data.length = s.secLen + 1 := by
  rw [largeCall, List.length_append, List.length_singleton]
  rfl

theorem largeCall_last (s : Section) : (largeCall s).data.getD s.secLen 0 = 0 := by
  rw [largeCall, secLen, List.getD_append_right _ _ _ _ le_rfl, Nat.sub_self]
  rfl

theorem largeCall_sent (hlen : s.secLen = 2 ^ 31) : (largeCall s).Sent := by
  have hcount := largeCall_length s
  refine ⟨by omega, fun i hi => ?_⟩
  by_cases hlast : i = s.secLen
  · have hmsb : (BitVec.ofNat 32 (2 ^ 31)).msb = true := by decide
    rw [hlast, largeCall_last, hlen, Call.item, hmsb, if_pos rfl]
  · exact Call.item_nonneg _ (by omega)

/-- The call clears the byte behind the section. -/
theorem largeCall_store (hlen : s.secLen < 2 ^ 63) (m : Mem) :
    memAfter m [largeCall s] (s.base + BitVec.ofNat 64 s.secLen) = 0 := by
  have haddr : s.base + BitVec.ofNat 64 0 = s.base := BitVec.add_zero _
  show m.write (s.base + BitVec.ofNat 64 0) (largeCall s).data.length
    (fun i => (largeCall s).data.getD i 0) _ = 0
  rw [haddr, largeCall_length, Mem.write_read (Nat.lt_succ_self _) (by omega)]
  exact largeCall_last s

/-- The byte behind a section is not one of its bytes. -/
theorem not_has_end (hlen : s.secLen < 2 ^ 63) :
    ¬s.Has (s.base + BitVec.ofNat 64 s.secLen) := by
  have hbase := s.base.isLt
  unfold Section.Has
  rw [offset_eq, BitVec.toNat_add, BitVec.toNat_ofNat]
  omega

theorem large_not_preloaded (hlen : s.secLen = 2 ^ 31) :
    ¬Preloaded noCode (fun _ => 1) [s] [largeCall s] := by
  intro h
  have hbound : s.secLen < 2 ^ 63 := by omega
  have hsent : ∀ c ∈ [largeCall s], c.Sent := List.forall_mem_singleton.2 (largeCall_sent hlen)
  obtain ⟨t, ht, hdone⟩ := h.served.exists_done
  have hone := h.frame t ht hdone _ (List.forall_mem_singleton.2 (not_has_end hbound))
  rw [sessions_end noCode _ hsent ht (Or.inl hdone)] at hone
  exact absurd (hone.symm.trans (largeCall_store hbound fun _ => 1)) (by decide)

/-- Two GiB of ones. -/
def large : Section := ⟨0x80000000, List.replicate (2 ^ 31) 1⟩

theorem large_secLen : large.secLen = 2 ^ 31 := by
  rw [large, secLen, List.length_replicate]

/-- With blocks of `2 ^ 31 + 1` bytes, the byte behind the section is lost. -/
theorem preload_large_lost :
    ¬∀ burst : BitVec 32, burst ≠ 0 → ∀ secs : List Section, (∀ s ∈ secs, s.secLen < 2 ^ 63) →
      secs.Pairwise Apart → ∀ (invoke : U64 → Mem → BitVec 32 × Mem) (m : Mem) (n : ℕ)
        (calls : List Call),
        (∀ fuel ≥ n, uartDebugElfPreload burst fuel secs = some calls) →
          Preloaded invoke m secs calls := by
  intro h
  have hlen : ∀ s ∈ [large], s.secLen < 2 ^ 63 :=
    List.forall_mem_singleton.2 (by rw [large_secLen]; decide)
  exact large_not_preloaded large_secLen (h 0x80000001 (by decide) [large] hlen
    (List.pairwise_singleton _ _) noCode _ _ _
    fun _ hfuel => uartDebugElfPreload_large large_secLen hfuel)

end Large

end Cheshire.UartDebug
