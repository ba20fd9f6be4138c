import Cheshire.SlinkPreloadMem

/-!
# Words over the serial link: `slink_write_32` and `slink_poll_bit0`

The bus has words of 8 bytes. A write selects the lanes of its 4 bytes by the strobe, and shifts
its data by 8 bits for each lane. A read gets the whole bus word, and `slink_poll_bit0` shifts it
by one bit for each lane.

**Theorem (`word_access`).** `slink_write_32` writes its word at every aligned address.
`slink_poll_bit0` sees the word at its address, and what `slink_write_32` has written there,
exactly if the address is that of a bus word.
-/

namespace Cheshire.SlinkPreload

open Lib

/-! ## The program -/

/-- `data` is extended to the width of the bus before it is shifted. -/
def slinkWrite32 (addr : ℕ) (data : BitVec 32) : Option (Write vip64.axiStrbWidth) :=
  slinkWriteBeats vip64 addr 2
    [byteOf (data.setWidth 64 <<< (8 * (addr % 2 ^ vip64.axiStrbBits))).toNat]

/-- What the bus returns for an address: the whole word. -/
def busWord (mem : Memory) (addr : ℕ) : BitVec 64 :=
  BitVec.ofNat 64 (le 8 fun e => mem (addr / 8 * 8 + e))

/-- The beats of an incrementing burst, up to the last one. -/
def slinkReadBeats (mem : Memory) (addr size len : ℕ) : List (BitVec 64) :=
  (List.range (len + 1)).map fun i => busWord mem (addr + i * 2 ^ size)

/-- `data` in one turn of the loop of `slink_poll_bit0`. -/
def pollData (mem : Memory) (addr : ℕ) : BitVec 32 :=
  ((slinkReadBeats mem addr 2 0).getD 0 0 >>> (addr % 2 ^ vip64.axiStrbBits)).setWidth 32

/-- The loop, for at most `fuel` turns: which of the reads was the last one, and `data`. The memory
may change from read to read. -/
def slinkPollBit0 (mems : ℕ → Memory) (addr : ℕ) : ℕ → ℕ → Option (ℕ × BitVec 32)
  | 0, _ => none
  | fuel + 1, n =>
    if (pollData (mems n) addr).getLsbD 0 then some (n, pollData (mems n) addr)
    else slinkPollBit0 mems addr fuel (n + 1)

/-! ## What the program is for -/

/-- The 32-bit word at an address. -/
def wordAt (mem : Memory) (a : ℕ) : BitVec 32 := BitVec.ofNat 32 (le 4 fun e => mem (a + e))

/-- A write changes the four bytes at the address, and nothing else. -/
def Writes (a : ℕ) : Prop :=
  ∀ (mem : Memory) (d : BitVec 32), ∃ w, slinkWrite32 a d = some w ∧
    w.store mem = fun x => if a ≤ x ∧ x < a + 4 then byteOf d.toNat (x - a) else mem x

/-- A poll ends only when the word at the address has bit 0 set, and returns that word. -/
def Polls (a : ℕ) : Prop :=
  ∀ (mems : ℕ → Memory) (fuel n : ℕ) (data : BitVec 32),
    slinkPollBit0 mems a fuel 0 = some (n, data) →
      data = wordAt (mems n) a ∧ (wordAt (mems n) a).getLsbD 0 = true

/-- A poll returns the odd word that has been written before. -/
def ReadsBack (a : ℕ) : Prop :=
  ∀ (mem : Memory) (d : BitVec 32), d.getLsbD 0 = true → ∀ w, slinkWrite32 a d = some w →
    ∃ n, ∀ fuel ≥ n, slinkPollBit0 (fun _ => w.store mem) a fuel 0 = some (0, d)

/-! ## Writing -/

section Write

variable {a x : ℕ} {d : BitVec 32} {mem : Memory}

/-- The strobe selects the four lanes from the address on. -/
theorem strobe_word (h : 4 ∣ a) {e : ℕ} (he : e < 8) :
    (strobe vip64 a 2 0).getLsbD e = true ↔ a % 8 ≤ e ∧ e < a % 8 + 4 := by
  have hlane : a % 8 = 0 ∨ a % 8 = 4 := by omega
  show ((~~~(BitVec.allOnes 8 <<< (1 <<< 2))) <<< (a % 8)).getLsbD e = true ↔ _
  rcases hlane with hlane | hlane
  all_goals
    rw [hlane]
    revert e
    decide

/-- The lane of the address `x` holds the byte of the word for `x`. -/
theorem data_lane {e : ℕ} (hlow : a % 8 ≤ e) (hhigh : e < 8) (hword : e < a % 8 + 4) :
    byteOf (d.setWidth 64 <<< (8 * (a % 2 ^ vip64.axiStrbBits))).toNat e =
      byteOf d.toNat (e - a % 8) := by
  show byteOf (d.setWidth 64 <<< (8 * (a % 8))).toNat e = _
  rw [byteOf_shiftLeft _ _ _ (by omega), if_neg (by omega), byteOf_setWidth _ _ (by omega)]

theorem write_exact (h : 4 ∣ a) : Writes a := by
  intro mem d
  refine ⟨_, rfl, funext fun x => ?_⟩
  show (if x / 8 = a / 8 ∧ (strobe vip64 a 2 0).getLsbD (x % 8) = true then
    byteOf (d.setWidth 64 <<< (8 * (a % 2 ^ vip64.axiStrbBits))).toNat (x % 8) else mem x) = _
  have hstrb := strobe_word h (Nat.mod_lt x (show 0 < 8 by decide))
  by_cases hx : a ≤ x ∧ x < a + 4
  · have hoff : x % 8 - a % 8 = x - a := by omega
    rw [if_pos hx, if_pos ⟨by omega, hstrb.2 (by omega)⟩,
      data_lane (by omega) (by omega) (by omega), hoff]
  · rw [if_neg hx, if_neg fun hin => hx (by have := hstrb.1 hin.2; omega)]

end Write

/-! ## Reading -/

section Read

variable {a : ℕ} {mem : Memory}

theorem pollData_eq (mem : Memory) (a : ℕ) :
    pollData mem a = (busWord mem a >>> (a % 8)).setWidth 32 := rfl

/-- At the address of a bus word, a read gets the word. -/
theorem pollData_aligned (h : 8 ∣ a) (mem : Memory) : pollData mem a = wordAt mem a := by
  have hstart : a / 8 * 8 = a := Nat.div_mul_cancel h
  have hlow := le_mod (show 4 ≤ 8 by decide) fun e => mem (a + e)
  have hlt := le_lt 8 fun e => mem (a + e)
  refine BitVec.eq_of_toNat_eq ?_
  rw [pollData_eq, Nat.mod_eq_zero_of_dvd h, BitVec.ushiftRight_zero, busWord, hstart, wordAt,
    BitVec.toNat_setWidth, BitVec.toNat_ofNat, BitVec.toNat_ofNat]
  omega

/-- The end of a poll. -/
theorem poll_end {mems : ℕ → Memory} {fuel k n : ℕ} {data : BitVec 32}
    (h : slinkPollBit0 mems a fuel k = some (n, data)) :
    data = pollData (mems n) a ∧ data.getLsbD 0 = true := by
  induction fuel generalizing k with
  | zero => exact absurd h fun h => nomatch h
  | succ fuel ih =>
    rw [slinkPollBit0] at h
    split_ifs at h with hbit
    · cases h
      exact ⟨rfl, hbit⟩
    · exact ih h

theorem polls_of_dvd (h : 8 ∣ a) : Polls a := by
  intro mems fuel n data hpoll
  obtain ⟨hdata, hbit⟩ := poll_end hpoll
  rw [pollData_aligned h] at hdata
  exact ⟨hdata, hdata ▸ hbit⟩

theorem wordAt_written (mem : Memory) (a : ℕ) (d : BitVec 32) :
    wordAt (fun x => if a ≤ x ∧ x < a + 4 then byteOf d.toNat (x - a) else mem x) a = d := by
  have hbytes : (le 4 fun e => if a ≤ a + e ∧ a + e < a + 4 then byteOf d.toNat (a + e - a)
      else mem (a + e)) = le 4 (byteOf d.toNat) := by
    refine le_congr fun e he => ?_
    rw [if_pos (by omega), Nat.add_sub_cancel_left]
  rw [wordAt, hbytes, le_byteOf]
  exact BitVec.eq_of_toNat_eq (by rw [BitVec.toNat_ofNat]; omega)

/-- The memory after a write. -/
theorem write_store (h : 4 ∣ a) {d : BitVec 32} {w : Write vip64.axiStrbWidth}
    (hw : slinkWrite32 a d = some w) (mem : Memory) : w.store mem =
      fun x => if a ≤ x ∧ x < a + 4 then byteOf d.toNat (x - a) else mem x := by
  obtain ⟨w', hw', hstore⟩ := write_exact h mem d
  obtain rfl : w = w' := Option.some.inj (hw.symm.trans hw')
  exact hstore

theorem readsBack_of_dvd (h : 8 ∣ a) : ReadsBack a := by
  intro mem d hodd w hw
  refine ⟨1, fun fuel hfuel => ?_⟩
  obtain ⟨fuel, rfl⟩ := Nat.exists_eq_add_of_le' hfuel
  have hdata : pollData (w.store mem) a = d := by
    rw [pollData_aligned h, write_store (by omega) hw, wordAt_written]
  rw [slinkPollBit0, hdata, if_pos hodd]

end Read

/-! ## The upper word of a bus word -/

section Upper

variable {a : ℕ}

/-- A read at the upper word is shifted by four bits. -/
theorem pollData_upper (h : a % 8 = 4) {mem : Memory} {f : ℕ → Byte}
    (hf : ∀ e < 8, mem (a - 4 + e) = f e) :
    pollData mem a = (BitVec.ofNat 64 (le 8 f) >>> 4).setWidth 32 := by
  have hstart : a / 8 * 8 = a - 4 := by omega
  rw [pollData_eq, busWord, hstart, h, le_congr hf]

/-- Bit 4 of the lower word is taken for bit 0. -/
theorem not_polls (h : a % 8 = 4) : ¬Polls a := by
  intro hpolls
  have hdata : pollData (fun x => if x = a - 4 then 0x10 else 0) a = 1 := by
    refine (pollData_upper h (f := fun e => if e = 0 then 0x10 else 0) fun e _ => ?_).trans
      (by decide)
    exact if_congr (by omega) rfl rfl
  have hword : wordAt (fun x => if x = a - 4 then 0x10 else 0) a = 0 := by
    have hzero : ∀ e < 4, (if a + e = a - 4 then 0x10 else 0) = (0 : Byte) :=
      fun e _ => if_neg (by omega)
    rw [wordAt, le_congr hzero]
    rfl
  have hend : slinkPollBit0 (fun _ x => if x = a - 4 then 0x10 else 0) a 1 0 = some (0, 1) := by
    rw [slinkPollBit0, hdata]
    rfl
  have hresult := (hpolls _ 1 0 1 hend).1
  rw [hword] at hresult
  exact absurd hresult (by decide)

/-- A 1 is read as `2 ^ 28`. -/
theorem not_readsBack (h : a % 8 = 4) : ¬ReadsBack a := by
  intro hreads
  have haligned : 4 ∣ a := by omega
  obtain ⟨w, hw, -⟩ := write_exact haligned (fun _ => 0) 1
  obtain ⟨n, hpoll⟩ := hreads (fun _ => 0) 1 (by decide) w hw
  have hdata : pollData (w.store fun _ => 0) a = 0x10000000 := by
    refine (pollData_upper h (f := fun e => if e = 4 then 1 else 0) fun e he => ?_).trans
      (by decide)
    rw [write_store haligned hw]
    show (if a ≤ a - 4 + e ∧ a - 4 + e < a + 4 then byteOf (1 : BitVec 32).toNat (a - 4 + e - a)
      else 0) = if e = 4 then 1 else 0
    by_cases hfour : e = 4
    · rw [if_pos (by omega), if_pos hfour, show a - 4 + e - a = 0 by omega]
      rfl
    · rw [if_neg hfour]
      by_cases hin : a ≤ a - 4 + e ∧ a - 4 + e < a + 4
      · have hpow : 256 ^ 1 ≤ 256 ^ (a - 4 + e - a) :=
          Nat.pow_le_pow_right (by decide) (by omega)
        have hlt := lt_of_lt_of_le (show (1 : BitVec 32).toNat < 256 ^ 1 by decide) hpow
        rw [if_pos hin, byteOf_eq_zero hlt]
        rfl
      · rw [if_neg hin]
  have hone := (poll_end (hpoll n le_rfl)).1
  rw [hdata] at hone
  exact absurd hone (by decide)

end Upper

/-! ## Main result -/

/-- **Main result.** A write is right at every aligned address. A poll is right, also of what a
write has left there, exactly at the address of a bus word. -/
theorem word_access (a : ℕ) (h : 4 ∣ a) :
    Writes a ∧ (Polls a ↔ 8 ∣ a) ∧ (ReadsBack a ↔ 8 ∣ a) := by
  have hupper (hno : ¬8 ∣ a) : a % 8 = 4 := by omega
  refine ⟨write_exact h, ⟨fun hpolls => ?_, polls_of_dvd⟩, fun hreads => ?_, readsBack_of_dvd⟩
  · by_contra hno
    exact not_polls (hupper hno) hpolls
  · by_contra hno
    exact not_readsBack (hupper hno) hreads

/-- The two words of a bus word. -/
theorem word_access_lanes : (Polls 0 ∧ ReadsBack 0) ∧ Writes 4 ∧ ¬Polls 4 :=
  ⟨⟨(word_access 0 (by decide)).2.1.2 (by decide), (word_access 0 (by decide)).2.2.2 (by decide)⟩,
    (word_access 4 (by decide)).1,
    fun h => absurd ((word_access 4 (by decide)).2.1.1 h) (by decide)⟩

/-- At address 4, a poll that finds bit 4 of the lower word set returns a word that is not there. -/
theorem poll_wrong_lane : ¬∀ a : ℕ, 4 ∣ a → Writes a ∧ Polls a ∧ ReadsBack a :=
  fun h => not_polls (a := 4) (by decide) (h 4 (by decide)).2.1

end Cheshire.SlinkPreload
