import Cheshire.Lib.Bytes
import Mathlib.Algebra.Order.Group.Nat
import Mathlib.Data.BitVec
import Mathlib.Data.Int.Init
import Mathlib.Data.Nat.ModEq
import Mathlib.Tactic.Ring

/-!
# Preloading an ELF file over the serial link: `slink_elf_preload`

The virtual platform writes each section of the ELF file as a series of AXI bursts. A burst is
no longer than `SlinkBurstBytes` and stops at the end of a 4 KiB page. Its beats are whole bus
words: where the burst starts or ends inside a word, the rest of the word is filled with zeros.

**Theorem (`burstLoop_legal`).** The loop over a section ends. The byte ranges of its bursts tile
the section in order, and each burst has between 1 and 256 beats, starts at a bus word, and stays
inside one page with all its beats.

Addresses are numbers without an upper end, since no section reaches the end of the address
space.
-/

namespace Cheshire.SlinkPreload

open Lib

/-! ## The platform and the sections -/

/-- The parameters of the virtual platform: a bus of `2 ^ axiStrbBits` bytes, and the length of a
burst. -/
structure Vip where
  axiStrbBits : ℕ
  slinkBurstBytes : ℕ
  strbBits_pos : 1 ≤ axiStrbBits
  strbBits_le : axiStrbBits ≤ 7
  burst_pos : 0 < slinkBurstBytes
  burst_dvd : 2 ^ axiStrbBits ∣ slinkBurstBytes
  burst_le : slinkBurstBytes ≤ 255 * 2 ^ axiStrbBits

/-- `AxiStrbWidth`, the bytes of a bus word. -/
def Vip.axiStrbWidth (vip : Vip) : ℕ := 2 ^ vip.axiStrbBits

/-- A section: its address, and its bytes as `read_section` leaves them in `bf`. -/
structure Section where
  secAddr : ℕ
  bf : List Byte

namespace Section

def secLen (s : Section) : ℕ := s.bf.length

/-- The first address behind the section. -/
def secEnd (s : Section) : ℕ := s.secAddr + s.secLen

end Section

/-! ## `slink_write_beats` -/

/-- The bytes of a bus word, by lane. -/
abbrev Beat := ℕ → Byte

/-- A beat on the write data channel. -/
structure WBeat (w : ℕ) where
  wStrb : BitVec w
  wData : Beat
  wLast : Bool

/-- A write: the fields of its address beat, and its data beats. -/
structure Write (w : ℕ) where
  axAddr : ℕ
  axLen : ℕ
  axSize : ℕ
  beats : List (WBeat w)

/-- The strobe of beat `i`. The source also moves `addr` from beat to beat, but only the strobe
of the first beat depends on it. -/
def strobe (vip : Vip) (addr size i : ℕ) : BitVec vip.axiStrbWidth :=
  if i = 0 then
    (~~~(BitVec.allOnes _ <<< (1 <<< size))) <<< (addr % 2 ^ vip.axiStrbBits)
  else BitVec.allOnes _

/-- A write of no beats is fatal. `ax_len` has eight bits, and the loop over the beats runs up to
it. -/
def slinkWriteBeats (vip : Vip) (addr size : ℕ) (beats : List Beat) :
    Option (Write vip.axiStrbWidth) :=
  let axLen := (beats.length - 1) % 256
  if beats.length = 0 then none
  else some ⟨addr, axLen, size, (List.range (axLen + 1)).map fun i =>
    ⟨strobe vip addr size i, beats.getD i 0, i == axLen⟩⟩

/-! ## `slink_elf_preload` -/

section Loop

variable (vip : Vip) (s : Section)

/-- `addr_cur & 12'hFFF` is the place in the page. -/
def pageLeft (addrCur : ℕ) : ℕ := 4096 - addrCur % 4096

def burstLen (secOffs : ℕ) : ℕ :=
  let secLeft := s.secLen - secOffs
  let burstLen := if vip.slinkBurstBytes > secLeft then secLeft else vip.slinkBurstBytes
  if burstLen > pageLeft (s.secAddr + secOffs) then pageLeft (s.secAddr + secOffs) else burstLen

/-- The beat from byte `b` of the burst on. -/
def beatFrom (secOffs burstLen : ℕ) (b : ℤ) : Beat := fun e =>
  if 0 ≤ b + e ∧ b + e < burstLen then s.bf.getD (secOffs + b + e).toNat 0 else 0

/-- The loop over `b` that assembles the beats. -/
def assembleBeats (secOffs burstLen : ℕ) : ℕ → ℤ → Option (List Beat)
  | 0, _ => none
  | fuel + 1, b =>
    if b < burstLen then do
      let rest ← assembleBeats secOffs burstLen fuel (b + vip.axiStrbWidth)
      return beatFrom s secOffs burstLen b :: rest
    else return []

/-- One turn of the loop over the section: the bytes of the section that it stores, what it hands
to `slink_write_beats`, and the write that this makes. -/
structure Burst (w : ℕ) where
  addrCur : ℕ
  burstLen : ℕ
  addr : ℕ
  beats : List Beat
  write : Write w

/-- The body of the loop over the section. -/
def burst (fuel secOffs : ℕ) : Option (Burst vip.axiStrbWidth) := do
  let addrCur := s.secAddr + secOffs
  let len := burstLen vip s secOffs
  let busOffs := addrCur % 2 ^ vip.axiStrbBits
  let addr := addrCur - busOffs
  let beats ← assembleBeats vip s secOffs len fuel (-busOffs)
  let write ← slinkWriteBeats vip addr vip.axiStrbBits beats
  return ⟨addrCur, len, addr, beats, write⟩

/-- The loop over the section, for fewer than `n` turns. -/
def burstLoop (fuel : ℕ) : ℕ → ℕ → Option (List (Burst vip.axiStrbWidth))
  | 0, _ => none
  | n + 1, secOffs =>
    if secOffs < s.secLen then do
      let b ← burst vip s fuel secOffs
      let rest ← burstLoop fuel n (secOffs + b.burstLen)
      return b :: rest
    else return []

/-- The bursts of a section; each loop makes fewer than `fuel` turns. -/
def preloadSection (fuel : ℕ) : Option (List (Burst vip.axiStrbWidth)) :=
  burstLoop vip s fuel fuel 0

/-- The writes of the whole file, section by section. -/
def slinkElfPreload (fuel : ℕ) : List Section → Option (List (Burst vip.axiStrbWidth))
  | [] => some []
  | s :: secs => do
    let bursts ← preloadSection vip s fuel
    let rest ← slinkElfPreload fuel secs
    return bursts ++ rest

end Loop

/-! ## The length of a burst -/

section Bounds

variable (vip : Vip) (s : Section)

theorem Vip.strbWidth_pos : 0 < vip.axiStrbWidth := Nat.two_pow_pos _

/-- A page is a whole number of bus words. -/
theorem Vip.strbWidth_dvd_page : vip.axiStrbWidth ∣ 4096 :=
  Nat.pow_dvd_pow 2 (show vip.axiStrbBits ≤ 12 from vip.strbBits_le.trans (by decide))

theorem burstLen_eq (secOffs : ℕ) :
    burstLen vip s secOffs = min (min vip.slinkBurstBytes (s.secLen - secOffs))
      (pageLeft (s.secAddr + secOffs)) := by
  unfold burstLen
  simp only [gt_iff_lt]
  split_ifs <;> omega

theorem burstLen_le_left (secOffs : ℕ) : burstLen vip s secOffs ≤ s.secLen - secOffs := by
  rw [burstLen_eq]
  omega

theorem burstLen_le_burst (secOffs : ℕ) : burstLen vip s secOffs ≤ vip.slinkBurstBytes := by
  rw [burstLen_eq]
  omega

theorem burstLen_le_page (secOffs : ℕ) :
    burstLen vip s secOffs ≤ pageLeft (s.secAddr + secOffs) := by
  rw [burstLen_eq]
  omega

theorem burstLen_pos {secOffs : ℕ} (h : secOffs < s.secLen) : 0 < burstLen vip s secOffs := by
  have hburst := vip.burst_pos
  have hpage : 0 < pageLeft (s.secAddr + secOffs) := by
    unfold pageLeft
    omega
  rw [burstLen_eq]
  omega

end Bounds

/-! ## The beats of a burst -/

section Beats

variable (vip : Vip) (s : Section)

/-- How many bus words a burst touches. -/
def beatCount (addrCur len : ℕ) : ℕ :=
  (addrCur % vip.axiStrbWidth + len + (vip.axiStrbWidth - 1)) / vip.axiStrbWidth

theorem beatCount_bounds (addrCur len : ℕ) :
    addrCur % vip.axiStrbWidth + len ≤ beatCount vip addrCur len * vip.axiStrbWidth ∧
      beatCount vip addrCur len * vip.axiStrbWidth <
        addrCur % vip.axiStrbWidth + len + vip.axiStrbWidth := by
  have hpos := vip.strbWidth_pos
  have hdiv := Nat.div_add_mod (addrCur % vip.axiStrbWidth + len + (vip.axiStrbWidth - 1))
    vip.axiStrbWidth
  have hmod := Nat.mod_lt (addrCur % vip.axiStrbWidth + len + (vip.axiStrbWidth - 1)) hpos
  rw [Nat.mul_comm] at hdiv
  unfold beatCount
  omega

theorem beatCount_pos (addrCur : ℕ) {len : ℕ} (h : 0 < len) : 0 < beatCount vip addrCur len := by
  have hle := (beatCount_bounds vip addrCur len).1
  by_contra hzero
  rw [Nat.eq_zero_of_not_pos hzero, Nat.zero_mul] at hle
  omega

/-- At most 255 words of data, and one more where the burst starts inside a word. -/
theorem beatCount_le (addrCur : ℕ) {len : ℕ} (h : len ≤ vip.slinkBurstBytes) :
    beatCount vip addrCur len ≤ 256 := by
  have hlt := (beatCount_bounds vip addrCur len).2
  have hmod := Nat.mod_lt addrCur vip.strbWidth_pos
  have hburst : vip.slinkBurstBytes ≤ 255 * vip.axiStrbWidth := vip.burst_le
  have hwords : beatCount vip addrCur len * vip.axiStrbWidth < 257 * vip.axiStrbWidth := by omega
  exact Nat.le_of_lt_succ (Nat.lt_of_mul_lt_mul_right hwords)

/-- The loop over `b` runs for as long as a word holds bytes of the burst. -/
theorem assembleBeats_eq (secOffs len : ℕ) {n fuel : ℕ} {b : ℤ}
    (hle : (len : ℤ) ≤ b + n * vip.axiStrbWidth)
    (hlt : b + n * vip.axiStrbWidth < len + vip.axiStrbWidth) (hfuel : n < fuel) :
    assembleBeats vip s secOffs len fuel b =
      some ((List.range n).map fun i : ℕ => beatFrom s secOffs len (b + i * vip.axiStrbWidth)) := by
  induction n generalizing fuel b with
  | zero =>
    obtain ⟨fuel, rfl⟩ := Nat.exists_eq_add_of_le' hfuel
    rw [assembleBeats, if_neg (by push_cast at hle; omega)]
    rfl
  | succ n ih =>
    obtain ⟨fuel, rfl⟩ := Nat.exists_eq_add_of_le' (show 1 ≤ fuel by omega)
    have hsplit : b + ((n + 1 : ℕ) : ℤ) * vip.axiStrbWidth =
        b + vip.axiStrbWidth + n * vip.axiStrbWidth := by push_cast; ring
    have hnonneg : (0 : ℤ) ≤ n * vip.axiStrbWidth := by positivity
    rw [hsplit] at hle hlt
    rw [assembleBeats, if_pos (by omega), ih hle hlt (by omega), List.range_succ_eq_map]
    simp only [Option.bind_eq_bind, Option.bind_some, List.map_cons, List.map_map]
    congr 2
    · push_cast; ring_nf
    · refine List.map_congr_left fun i _ => ?_
      simp only [Function.comp_apply]
      congr 1
      push_cast; ring

/-- A beat of a whole word at an aligned address has all its lanes strobed. -/
theorem strobe_aligned {addr : ℕ} (h : vip.axiStrbWidth ∣ addr) (i : ℕ) :
    strobe vip addr vip.axiStrbBits i = BitVec.allOnes _ := by
  have hshift : 1 <<< vip.axiStrbBits = vip.axiStrbWidth := by
    rw [Nat.shiftLeft_eq, Nat.one_mul, Vip.axiStrbWidth]
  have hmod : addr % 2 ^ vip.axiStrbBits = 0 := Nat.mod_eq_zero_of_dvd h
  unfold strobe
  rw [hshift, hmod]
  split_ifs
  · refine BitVec.eq_of_getLsbD_eq fun j hj => ?_
    simp [hj]
  · rfl

/-- The beats of the burst at `secOffs`, whose first word starts before the burst where that is
not aligned. -/
def beatsOf (secOffs : ℕ) : List Beat :=
  let addrCur := s.secAddr + secOffs
  let len := burstLen vip s secOffs
  (List.range (beatCount vip addrCur len)).map fun i : ℕ =>
    beatFrom s secOffs len (-(addrCur % vip.axiStrbWidth : ℕ) + i * vip.axiStrbWidth)

theorem beatsOf_length (secOffs : ℕ) :
    (beatsOf vip s secOffs).length =
      beatCount vip (s.secAddr + secOffs) (burstLen vip s secOffs) := by
  simp [beatsOf]

/-- The burst of one turn of the loop. -/
def burstAt (secOffs : ℕ) : Burst vip.axiStrbWidth :=
  let addrCur := s.secAddr + secOffs
  let addr := addrCur - addrCur % vip.axiStrbWidth
  let beats := beatsOf vip s secOffs
  ⟨addrCur, burstLen vip s secOffs, addr, beats,
    ⟨addr, beats.length - 1, vip.axiStrbBits, (List.range beats.length).map fun i =>
      ⟨BitVec.allOnes _, beats.getD i 0, i == beats.length - 1⟩⟩⟩

theorem aligned (x : ℕ) : vip.axiStrbWidth ∣ x - x % vip.axiStrbWidth :=
  Nat.dvd_sub_mod x

/-- The body of the loop makes the burst `burstAt`. -/
theorem burst_eq {fuel secOffs : ℕ} (h : secOffs < s.secLen) (hfuel : 256 < fuel) :
    burst vip s fuel secOffs = some (burstAt vip s secOffs) := by
  have hpos := beatCount_pos vip (s.secAddr + secOffs) (burstLen_pos vip s h)
  have hle := beatCount_le vip (s.secAddr + secOffs) (burstLen_le_burst vip s secOffs)
  obtain ⟨hcover, hlast⟩ := beatCount_bounds vip (s.secAddr + secOffs) (burstLen vip s secOffs)
  rw [← Int.ofNat_le] at hcover
  rw [← Int.ofNat_lt] at hlast
  rw [Nat.cast_add, Nat.cast_mul] at hcover
  rw [Nat.cast_add, Nat.cast_add, Nat.cast_mul] at hlast
  have hassemble : assembleBeats vip s secOffs (burstLen vip s secOffs) fuel
      (-((s.secAddr + secOffs) % vip.axiStrbWidth : ℕ)) = some (beatsOf vip s secOffs) :=
    assembleBeats_eq vip s _ _ (by omega) (by omega) (by omega)
  have hlen := beatsOf_length vip s secOffs
  have hmod : ((beatsOf vip s secOffs).length - 1) % 256 = (beatsOf vip s secOffs).length - 1 :=
    Nat.mod_eq_of_lt (by omega)
  have hsucc : (beatsOf vip s secOffs).length - 1 + 1 = (beatsOf vip s secOffs).length := by omega
  unfold burst
  simp only [Option.bind_eq_bind]
  rw [show 2 ^ vip.axiStrbBits = vip.axiStrbWidth from rfl, hassemble, Option.bind_some,
    slinkWriteBeats]
  simp only [hmod, hsucc, strobe_aligned vip (aligned vip _)]
  rw [if_neg (by omega), Option.bind_some]
  rfl

end Beats

/-! ## The loop over a section -/

section Loop

variable (vip : Vip) (s : Section)

/-- The offsets at which the bursts of a section start, from `secOffs` on. -/
def offsets (secOffs : ℕ) : List ℕ :=
  if _h : secOffs < s.secLen then secOffs :: offsets (secOffs + burstLen vip s secOffs) else []
termination_by s.secLen - secOffs
decreasing_by
  have := burstLen_pos vip s _h
  omega

/-- The loop ends, since each burst has at least a byte. -/
theorem burstLoop_eq {fuel n : ℕ} (hfuel : 256 < fuel) (secOffs : ℕ)
    (hn : s.secLen - secOffs < n) :
    burstLoop vip s fuel n secOffs = some ((offsets vip s secOffs).map (burstAt vip s)) := by
  induction n generalizing secOffs with
  | zero => exact absurd hn (Nat.not_lt_zero _)
  | succ n ih =>
    rw [burstLoop, offsets]
    split_ifs with h
    · have hpos := burstLen_pos vip s h
      rw [burst_eq vip s h hfuel, Option.bind_eq_bind, Option.bind_some]
      show (burstLoop vip s fuel n (secOffs + burstLen vip s secOffs)).bind _ = _
      rw [ih _ (by omega)]
      rfl
    · rfl

theorem preloadSection_eq {fuel : ℕ} (hfuel : 256 < fuel) (hlen : s.secLen < fuel) :
    preloadSection vip s fuel = some ((offsets vip s 0).map (burstAt vip s)) :=
  burstLoop_eq vip s hfuel 0 (by omega)

/-- Ranges that follow each other from `a` to `b`, none of them empty. -/
def Tiles : ℕ → ℕ → List (ℕ × ℕ) → Prop
  | a, b, [] => a = b
  | a, b, r :: rs => r.1 = a ∧ 0 < r.2 ∧ Tiles (a + r.2) b rs

theorem offsets_tile (secOffs : ℕ) (h : secOffs ≤ s.secLen) :
    Tiles (s.secAddr + secOffs) s.secEnd
      ((offsets vip s secOffs).map fun o => (s.secAddr + o, burstLen vip s o)) := by
  induction secOffs using offsets.induct vip s with
  | case1 secOffs hlt ih =>
    have hleft := burstLen_le_left vip s secOffs
    rw [offsets, dif_pos hlt]
    refine ⟨rfl, burstLen_pos vip s hlt, ?_⟩
    have htail := ih (by omega)
    rwa [← Nat.add_assoc] at htail
  | case2 secOffs hlt =>
    rw [offsets, dif_neg hlt]
    show s.secAddr + secOffs = s.secAddr + s.secLen
    omega

theorem offsets_lt {secOffs o : ℕ} (h : o ∈ offsets vip s secOffs) : o < s.secLen := by
  induction secOffs using offsets.induct vip s with
  | case1 secOffs hlt ih =>
    rw [offsets, dif_pos hlt] at h
    rcases List.mem_cons.mp h with rfl | h
    · exact hlt
    · exact ih h
  | case2 secOffs hlt =>
    rw [offsets, dif_neg hlt] at h
    exact absurd h List.not_mem_nil

/-- What AXI asks of a burst: as many beats as `ax_len` can count, a start at a bus word, and all
beats in one 4 KiB page. -/
structure Legal (b : Burst vip.axiStrbWidth) : Prop where
  beats_pos : 1 ≤ b.beats.length
  beats_le : b.beats.length ≤ 256
  aligned : vip.axiStrbWidth ∣ b.addr
  page : ∀ i < b.beats.length * vip.axiStrbWidth, (b.addr + i) / 4096 = b.addr / 4096

/-- The words of a burst stay in its page, which ends with a word. -/
theorem words_in_page (secOffs : ℕ) :
    4096 * ((s.secAddr + secOffs) / 4096) ≤
        s.secAddr + secOffs - (s.secAddr + secOffs) % vip.axiStrbWidth ∧
      s.secAddr + secOffs - (s.secAddr + secOffs) % vip.axiStrbWidth +
          beatCount vip (s.secAddr + secOffs) (burstLen vip s secOffs) * vip.axiStrbWidth ≤
        4096 * ((s.secAddr + secOffs) / 4096) + 4096 := by
  have hpos := vip.strbWidth_pos
  have hpage := burstLen_le_page vip s secOffs
  have hlt := (beatCount_bounds vip (s.secAddr + secOffs) (burstLen vip s secOffs)).2
  generalize hcur : s.secAddr + secOffs = cur at *
  generalize beatCount vip cur (burstLen vip s secOffs) = n at *
  obtain ⟨words, hwords⟩ := vip.strbWidth_dvd_page
  have hword : cur - cur % vip.axiStrbWidth = vip.axiStrbWidth * (cur / vip.axiStrbWidth) := by
    have := Nat.div_add_mod cur vip.axiStrbWidth
    omega
  have hmod := Nat.mod_le cur vip.axiStrbWidth
  have hstart : 4096 * (cur / 4096) = vip.axiStrbWidth * (words * (cur / 4096)) := by
    rw [← Nat.mul_assoc, ← hwords]
  have hend : 4096 * (cur / 4096) + 4096 = vip.axiStrbWidth * (words * (cur / 4096) + words) := by
    rw [Nat.mul_add, ← hstart, ← hwords]
  unfold pageLeft at hpage
  constructor
  · rw [hword, hstart]
    refine Nat.mul_le_mul_left _ ((Nat.le_div_iff_mul_le hpos).mpr ?_)
    rw [Nat.mul_comm, ← hstart]
    omega
  · have hsucc : vip.axiStrbWidth * (cur / vip.axiStrbWidth + n) <
        vip.axiStrbWidth * (words * (cur / 4096) + words + 1) := by
      rw [Nat.mul_add, Nat.mul_add _ (_ + _) 1, ← hword, ← hend, Nat.mul_comm _ n]
      omega
    rw [hword, hend, Nat.mul_comm n, ← Nat.mul_add]
    exact Nat.mul_le_mul_left _ (Nat.le_of_lt_succ (Nat.lt_of_mul_lt_mul_left hsucc))

theorem burstAt_legal {secOffs : ℕ} (h : secOffs < s.secLen) :
    Legal vip (burstAt vip s secOffs) := by
  have hlen : (burstAt vip s secOffs).beats.length =
      beatCount vip (s.secAddr + secOffs) (burstLen vip s secOffs) := beatsOf_length vip s secOffs
  refine ⟨?_, ?_, aligned vip _, ?_⟩
  · rw [hlen]
    exact beatCount_pos vip _ (burstLen_pos vip s h)
  · rw [hlen]
    exact beatCount_le vip _ (burstLen_le_burst vip s secOffs)
  · rw [hlen]
    intro i hi
    obtain ⟨hstart, hend⟩ := words_in_page vip s secOffs
    show (s.secAddr + secOffs - (s.secAddr + secOffs) % vip.axiStrbWidth + i) / 4096 =
      (s.secAddr + secOffs - (s.secAddr + secOffs) % vip.axiStrbWidth) / 4096
    omega

/-- **Main result.** The loop ends, its bursts tile the section in order, and each is legal. -/
theorem burstLoop_legal :
    ∃ bursts, (∃ n, ∀ fuel ≥ n, preloadSection vip s fuel = some bursts) ∧
      Tiles s.secAddr s.secEnd (bursts.map fun b => (b.addrCur, b.burstLen)) ∧
      ∀ b ∈ bursts, Legal vip b := by
  refine ⟨(offsets vip s 0).map (burstAt vip s), ⟨257 + s.secLen, fun fuel hfuel => ?_⟩, ?_, ?_⟩
  · exact preloadSection_eq vip s (by omega) (by omega)
  · rw [List.map_map]
    exact offsets_tile vip s 0 (Nat.zero_le _)
  · intro b hb
    obtain ⟨o, ho, rfl⟩ := List.mem_map.mp hb
    exact burstAt_legal vip s (offsets_lt vip s ho)

end Loop

end Cheshire.SlinkPreload
