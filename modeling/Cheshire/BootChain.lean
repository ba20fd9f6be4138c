import Cheshire.BootDisk
import Cheshire.ZslLaunch

/-!
# From the boot ROM to the firmware: `gpt.c`, `zsl.c`

The boot ROM leaves its read callback to the loader that it launches, as three scratch registers of
32 bits: the pointer, with bit 0 set, the handle, and the global pointer that the callback needs.
The loader calls the code at that pointer. It is relied on to be the callback only if the pointer,
the handle and the global pointer are those of the boot ROM (`Relocated`).

**Theorem (`boot_chain`).** On a disk with a table, and partitions for the loader, the device tree
and the firmware, read by a driver that does not fail: the boot ROM launches the loader, and the
loader calls the firmware with the device tree and the firmware in place, and with its own global
pointer again. The pointers have to fit into the registers (`Handover`).
-/

namespace Cheshire.BootChain

open Lib Gpt Zsl

/-! ## The scratch registers -/

/-- A scratch register, which held `v`, after the events of a log. -/
def scratchAfter (v : BitVec 32) (i : ℕ) (log : List Event) : BitVec 32 :=
  log.foldl (fun v e => match e with
    | .scratch j w => if i = j then w else v
    | _ => v) v

/-- The pointers of the boot ROM survive in 32 bits, and bit 0 of the callback's address is free. -/
structure Handover (a : BootArgs) : Prop where
  readPtr : a.readPtr.toNat < 2 ^ 32
  even : a.readPtr.getLsbD 0 = false
  priv : a.priv.toNat < 2 ^ 32
  gp : a.gp.toNat < 2 ^ 32
  nonnull : a.gp ≠ 0

section Scratch

theorem setWidth_setWidth_of_lt {x : U64} (h : x.toNat < 2 ^ 32) :
    (x.setWidth 32).setWidth 64 = x := by
  refine BitVec.eq_of_toNat_eq ?_
  rw [BitVec.toNat_setWidth, BitVec.toNat_setWidth, Nat.mod_eq_of_lt h,
    Nat.mod_eq_of_lt (by omega)]

/-- The mark in bit 0 is always there. -/
theorem mark_set (x : U64) : (x ||| 1).setWidth 32 &&& (1 : BitVec 32) ≠ 0 := by
  intro h
  have hbit := congrArg (fun b => b.getLsbD 0) h
  simp at hbit

/-- Without the mark, the register holds the pointer again. -/
theorem mark_cleared {x : U64} (h : x.toNat < 2 ^ 32) (heven : x.getLsbD 0 = false) :
    (((x ||| 1).setWidth 32 &&& ~~~1).setWidth 64 : U64) = x := by
  have hmark : (x ||| 1).setWidth 32 &&& ~~~(1 : BitVec 32) = x.setWidth 32 := by
    refine BitVec.eq_of_getLsbD_eq fun i hi => ?_
    simp only [BitVec.getLsbD_and, BitVec.getLsbD_not, BitVec.getLsbD_setWidth, BitVec.getLsbD_or,
      decide_eq_true hi, Bool.true_and]
    by_cases h0 : i = 0
    · subst h0
      simpa using heven
    · simp [h0]
  rw [hmark, setWidth_setWidth_of_lt h]

theorem scratchAfter_launch (v : BitVec 32) (i : ℕ) (log : List Event) (a : BootArgs)
    (addr len : U64) : scratchAfter v i (log ++ launch a addr len) =
      if i = 0 then (a.readPtr ||| 1).setWidth 32 else if i = 1 then a.priv.setWidth 32
      else if i = 3 then a.gp.setWidth 32 else scratchAfter v i log := by
  unfold scratchAfter launch
  rw [List.foldl_append]
  simp only [List.foldl_cons, List.foldl_nil]
  split_ifs <;> first | rfl | omega

end Scratch

/-! ## The relocated callback -/

section Relocated

variable {τ : Type} {call : U64 → U64 → GptRead (U64 × τ)} {a : BootArgs} {read : GptRead τ}
  {disk : Disk} {mem : τ → Mem} {place : Buf → U64} {rread rgp priv : U64}

/-- A state is the global pointer and the rest. -/
def onPair (call : U64 → U64 → GptRead (U64 × τ)) : Env (U64 × τ) :=
  ⟨Prod.fst, fun gp s => (gp, s.2), call⟩

/-- With the pointer, the handle and the global pointer of the boot ROM, a call is a read. -/
def Relocated (call : U64 → U64 → GptRead (U64 × τ)) (a : BootArgs) (read : GptRead τ) : Prop :=
  ∀ buf addr len d, call a.readPtr a.priv buf addr len (a.gp, d) =
    ((read buf addr len d).1, (a.gp, (read buf addr len d).2))

/-- The loader reads like the boot ROM, and has its own global pointer again, unless it had
none. -/
theorem grread_eq (hcall : Relocated call a read) (hgp : a.gp ≠ 0) (buf : Buf) (addr len : U64)
    (s : U64 × τ) : grread (onPair call) a.readPtr a.gp a.priv buf addr len s =
      ((read buf addr len s.2).1,
        (if s.1 ≠ 0 then s.1 else a.gp, (read buf addr len s.2).2)) := by
  obtain ⟨gp, d⟩ := s
  unfold grread gprw onPair
  dsimp only
  rw [if_pos hgp, hcall]
  split_ifs <;> rfl

theorem grread_reader (h : Reader read disk mem place) (hcall : Relocated call a read)
    (hgp : a.gp ≠ 0) : Reader (grread (onPair call) a.readPtr a.gp a.priv) disk
      (fun s => mem s.2) place where
  ext := h.ext
  data buf addr len s i hi := by
    rw [grread_eq hcall hgp]
    exact h.data buf addr len s.2 i hi
  right buf addr len s hret i hi := by
    rw [grread_eq hcall hgp] at hret ⊢
    exact h.right buf addr len s.2 hret i hi
  frame buf addr len s x hx := by
    rw [grread_eq hcall hgp]
    exact h.frame buf addr len s.2 x hx

/-- The global pointer, once there is one, stays. -/
theorem grread_keeps_gp (hcall : Relocated call a read) (hgp : a.gp ≠ 0) :
    TableKeeps (grread (onPair call) a.readPtr a.gp a.priv)
      fun s s' : U64 × τ => s.1 ≠ 0 → s'.1 = s.1 where
  refl _ _ := rfl
  trans h₁ h₂ h := by
    have heq := h₁ h
    rw [h₂ (heq ▸ h), heq]
  read buf addr s _ h := by
    rw [grread_eq hcall hgp]
    exact if_pos h

end Relocated

/-! ## Loading a partition -/

/-- Partition `k` of the disk is at `dst`. -/
def Holds (disk : Disk) (m : Mem) (k : ℕ) (dst : U64) : Prop :=
  ∀ i < 512 * (((disk.part k).lbaEnd - (disk.part k).lbaBegin).toNat + 1),
    m (dst + BitVec.ofNat 64 i) = disk.from (0x200 * (disk.part k).lbaBegin) i

section Load

variable {σ : Type} {read : GptRead σ} {disk : Disk} {mem : σ → Mem} {place : Buf → U64}
  {maxLbas dst : U64} {guid : Guid} {M : ℕ} {s s₁ : σ}

/-- The call that copies partition `M` to `dst`. -/
def copyPart (read : GptRead σ) (disk : Disk) (M : ℕ) (dst : U64) (s : σ) : σ :=
  (read (.ext dst) (0x200 * (disk.part M).lbaBegin) (Zsl.copyLen (disk.part M)) s).2

/-- A search that finds partition `M`, and the copy. -/
theorem loadPartOrSpin_eq (h : Reader read disk mem place) (hok : Succeeds read)
    (hM : disk.find maxLbas (some guid) none = some M) (dst : U64) (s : σ) :
    ∃ out s₁, FindRun read maxLbas (some guid) none s ⟨-1, 0, 0⟩ 0 out s₁ ∧
      loadPartOrSpin read guid dst maxLbas s = some (copyPart read disk M dst s₁) := by
  obtain ⟨c, out, s₁, hrun⟩ := findRun_total read maxLbas (some guid) none s ⟨-1, 0, 0⟩
  obtain rfl := findRun_zero (h.serves hok) hrun
  refine ⟨out, s₁, hrun, ?_⟩
  have hout := (findRun_reports h.honest hrun).found M (find_isLeast hM)
  unfold loadPartOrSpin
  rw [hrun.run, hout]
  have hpos : ¬(M : ℤ) < 0 := by omega
  exact (if_neg (not_not.2 rfl)).trans (if_neg hpos)

theorem copyPart_holds (h : Reader read disk mem place) (hok : Succeeds read)
    (hmax : maxLbas.toNat ≤ 2 ^ 32) (hM : disk.find maxLbas (some guid) none = some M) :
    Holds disk (mem (copyPart read disk M dst s)) M dst := by
  intro i hi
  rw [← Zsl.copyLen_toNat hmax (find_isLeast hM).1.2.1] at hi
  have hright := h.right (.ext dst) (0x200 * (disk.part M).lbaBegin)
    (Zsl.copyLen (disk.part M)) s (hok _ _ _ _) i hi
  rwa [h.ext] at hright

theorem copyPart_frame (h : Reader read disk mem place) (hmax : maxLbas.toNat ≤ 2 ^ 32)
    (hM : disk.find maxLbas (some guid) none = some M) {x : U64}
    (hx : 512 * maxLbas.toNat ≤ (x - dst).toNat) :
    mem (copyPart read disk M dst s) x = mem s x := by
  have hfit := (find_isLeast hM).1.2.1
  refine h.frame (.ext dst) _ _ s x ?_
  rw [h.ext, Zsl.copyLen_toNat hmax hfit]
  rw [PartFields.Fits, BitVec.lt_def] at hfit
  omega

end Load

/-! ## The whole boot -/

section Chain

variable {τ : Type} {call : U64 → U64 → GptRead (U64 × τ)} {a : BootArgs} {read read' : GptRead τ}
  {disk : Disk} {mem : τ → Mem} {place place' : Buf → U64} {M₀ M₁ M₂ : ℕ}

/-- The loader calls the firmware in state `s'`: the device tree and the firmware are in place. -/
structure Ready (disk : Disk) (M₁ M₂ : ℕ) (m : Mem) : Prop where
  dtb : Holds disk m M₁ bootZslDtb
  fw : Holds disk m M₂ bootZslFw

theorem dtb_offset {i : ℕ} (hi : i < 512 * 64) :
    512 * (8192 : U64).toNat ≤ (bootZslDtb + BitVec.ofNat 64 i - bootZslFw).toNat := by
  have hoff : (bootZslDtb + BitVec.ofNat 64 i - bootZslFw).toNat = 0x800000 + i := by
    rw [BitVec.toNat_sub, BitVec.toNat_add, BitVec.toNat_ofNat,
      show bootZslDtb.toNat = 0x80800000 from rfl, show bootZslFw.toNat = 0x80000000 from rfl]
    omega
  rw [hoff, show (8192 : U64).toNat = 8192 from rfl]
  omega

/-- A search and a copy leave the loader its global pointer. -/
theorem load_gp (hcall : Relocated call a read) (hgp : a.gp ≠ 0) {maxLbas dst : U64} {guid : Guid}
    {out out' : FindOut} {c : CInt} {M : ℕ} {s s₁ : U64 × τ} (hs : s.1 ≠ 0)
    (hrun : FindRun (grread (onPair call) a.readPtr a.gp a.priv) maxLbas (some guid) none s out c
      out' s₁) :
    (copyPart (grread (onPair call) a.readPtr a.gp a.priv) disk M dst s₁).1 = s.1 := by
  have hs₁ : s₁.1 = s.1 := (grread_keeps_gp hcall hgp).findRun hrun hs
  unfold copyPart
  rw [grread_eq hcall hgp]
  exact (if_pos (hs₁ ▸ hs)).trans hs₁

/-- The loader, after the boot ROM. -/
theorem main_ready (h : Reader read disk mem place) (hok : Succeeds read)
    (hcall : Relocated call a read) (ha : Handover a)
    (hdtb : disk.find 64 (some bootDtbTypeGuid) none = some M₁)
    (hfw : disk.find 8192 (some bootFwTypeGuid) none = some M₂)
    (hapart : ∀ i < 512 * 64, Apart place (bootZslDtb + BitVec.ofNat 64 i))
    {scratch : ℕ → BitVec 32} (h0 : scratch 0 = (a.readPtr ||| 1).setWidth 32)
    (h1 : scratch 1 = a.priv.setWidth 32) (h3 : scratch 3 = a.gp.setWidth 32)
    {gp : U64} (hgp : gp ≠ 0) (d : τ) : ∃ d', main (onPair call) scratch (gp, d) = some (gp, d') ∧
      Ready disk M₁ M₂ (mem d') := by
  have hreader := grread_reader h hcall ha.nonnull
  have hsucceeds : Succeeds (grread (onPair call) a.readPtr a.gp a.priv) := by
    intro buf addr len s
    rw [grread_eq hcall ha.nonnull]
    exact hok buf addr len s.2
  have hmain : main (onPair call) scratch (gp, d) =
      (loadPartOrSpin (grread (onPair call) a.readPtr a.gp a.priv) bootDtbTypeGuid bootZslDtb 64
        (gp, d)).bind (loadPartOrSpin (grread (onPair call) a.readPtr a.gp a.priv) bootFwTypeGuid
          bootZslFw 8192) := by
    unfold main
    dsimp only
    rw [h0, h1, h3, mark_cleared ha.readPtr ha.even, setWidth_setWidth_of_lt ha.priv,
      setWidth_setWidth_of_lt ha.gp]
    exact if_pos (mark_set a.readPtr)
  obtain ⟨out₁, s₁, hrun₁, hload₁⟩ :=
    loadPartOrSpin_eq hreader hsucceeds hdtb bootZslDtb (gp, d)
  have hgp₁ := @load_gp _ _ _ _ disk hcall ha.nonnull _ bootZslDtb _ _ _ _ M₁ _ _ hgp hrun₁
  generalize hs₁' : copyPart (grread (onPair call) a.readPtr a.gp a.priv) disk M₁ bootZslDtb s₁ =
    s₁' at hload₁ hgp₁
  have hmem₁ := @copyPart_holds _ _ _ _ _ 64 bootZslDtb _ _ s₁ hreader hsucceeds (by decide) hdtb
  rw [hs₁'] at hmem₁
  obtain ⟨out₂, s₂, hrun₂, hload₂⟩ := loadPartOrSpin_eq hreader hsucceeds hfw bootZslFw s₁'
  have hgp₂ := @load_gp _ _ _ _ disk hcall ha.nonnull _ bootZslFw _ _ _ _ M₂ _ _ (hgp₁ ▸ hgp) hrun₂
  have hmem₂ := @copyPart_holds _ _ _ _ _ 8192 bootZslFw _ _ s₂ hreader hsucceeds (by decide) hfw
  refine ⟨_, ?_, ?_, hmem₂⟩
  · rw [hmain, hload₁, Option.bind_some, hload₂]
    exact congrArg some (Prod.ext (hgp₂.trans hgp₁) rfl)
  · intro i hi
    have hfit := (find_isLeast hdtb).1.2.1
    rw [PartFields.Fits, BitVec.lt_def, show (64 : U64).toNat = 64 from rfl] at hfit
    have hi' : i < 512 * 64 := by omega
    have hframe := @copyPart_frame _ _ _ _ _ 8192 bootZslFw _ _ s₂ hreader (by decide) hfw _
      (dtb_offset hi')
    exact hframe.trans ((hreader.tableKeeps.findRun hrun₂ _ (hapart i hi')).trans (hmem₁ i hi))

/-- The boot ROM has launched the loader, partition `M₀`, and the loader, with any global pointer
and whatever it has done to memory, calls the firmware. -/
structure Chain (disk : Disk) (mem : τ → Mem) (call : U64 → U64 → GptRead (U64 × τ))
    (a : BootArgs) (M₀ M₁ M₂ : ℕ) (r : CInt × Boot τ) : Prop where
  launch : r.2.log.getLast? = some (.bootNextStage a.codeBuf)
  zsl : Holds disk (mem r.2.dev) M₀ a.codeBuf
  ready : ∀ (before : ℕ → BitVec 32) (gp : U64) (d : τ), gp ≠ 0 → ∃ d',
    main (onPair call) (fun i => scratchAfter (before i) i r.2.log) (gp, d) = some (gp, d') ∧
      Ready disk M₁ M₂ (mem d')

/-- From the boot ROM to the firmware, with a driver that does not fail. -/
theorem boot_chain (h : Reader read disk mem place) (hok : Succeeds read)
    (h' : Reader read' disk mem place') (hok' : Succeeds read') (ha : Handover a)
    (hcall : Relocated call a read') (hmax : a.maxLbas.toNat ≤ 2 ^ 32) (hsig : disk.Signed)
    (hzsl : disk.find a.maxLbas a.tguid a.pguid = some M₀)
    (hdtb : disk.find 64 (some bootDtbTypeGuid) none = some M₁)
    (hfw : disk.find 8192 (some bootFwTypeGuid) none = some M₂)
    (hapart : ∀ i < 512 * 64, Apart place' (bootZslDtb + BitVec.ofNat 64 i)) (d : τ) :
    Chain disk mem call a M₀ M₁ M₂ (gptBootPartElseRaw read a ⟨d, []⟩) := by
  have hboots : Boots disk mem place a d (disk.part M₀) (gptBootPartElseRaw read a ⟨d, []⟩) := by
    have hrange : disk.bootRange a.maxLbas a.tguid a.pguid = disk.part M₀ := by
      rw [Disk.bootRange, if_pos hsig, hzsl]
    exact hrange ▸ boots_of_succeeds h hok a d
  obtain ⟨log, hlog, -⟩ := hboots.launch
  have hfit := (find_isLeast hzsl).1.2.1
  refine ⟨?_, fun i hi => hboots.image i ?_, fun before gp d₁ hgp => ?_⟩
  · rw [hlog]
    simp [launch]
  · exact (Zsl.copyLen_toNat hmax hfit).symm ▸ hi
  · rw [hlog]
    exact main_ready h' hok' hcall ha hdtb hfw hapart (scratchAfter_launch ..)
      (scratchAfter_launch ..) (scratchAfter_launch ..) hgp d₁

end Chain

/-! ## Disk images -/

section Image

variable {τ : Type} {call : U64 → U64 → GptRead (U64 × τ)} {a : BootArgs} {read read' : GptRead τ}
  {image disk : Disk} {mem : τ → Mem} {place place' : Buf → U64} {n M M₀ M₁ M₂ : ℕ}

/-- The range of a partition is in the first `n` bytes. -/
def PartWithin (image : Disk) (n M : ℕ) : Prop :=
  (0x200 * (image.part M).lbaBegin).toNat +
    512 * (((image.part M).lbaEnd - (image.part M).lbaBegin).toNat + 1) ≤ n

/-- The first `n` bytes of the image have a table with partitions for the loader, the device tree
and the firmware, and these partitions. -/
structure Bootable (image : Disk) (n : ℕ) (a : BootArgs) (M₀ M₁ M₂ : ℕ) : Prop where
  signed : image.Signed
  table : image.TableWithin n
  zsl : image.find a.maxLbas a.tguid a.pguid = some M₀
  dtb : image.find 64 (some bootDtbTypeGuid) none = some M₁
  fw : image.find 8192 (some bootFwTypeGuid) none = some M₂
  within : ∀ M ∈ [M₀, M₁, M₂], PartWithin image n M

/-- A partition of the disk is one of the image. -/
theorem Holds.of_agree (h : image.Agree disk n) (hn : n ≤ 2 ^ 64) (ht : image.TableWithin n)
    (hM : M < image.count) (hw : PartWithin image n M) {m : Mem} {dst : U64}
    (hholds : Holds disk m M dst) : Holds image m M dst := by
  intro i hi
  have hdisk := hholds i
  rw [h.part hn ht hM] at hdisk
  rw [hdisk hi]
  refine (h.from_eq hn ?_).symm
  rw [PartWithin] at hw
  omega

/-- A disk boots that begins with a bootable image. -/
theorem image_chain (h : Reader read disk mem place) (hok : Succeeds read)
    (h' : Reader read' disk mem place') (hok' : Succeeds read') (ha : Handover a)
    (hcall : Relocated call a read') (hmax : a.maxLbas.toNat ≤ 2 ^ 32)
    (himage : Bootable image n a M₀ M₁ M₂) (hagree : image.Agree disk n) (hn : n ≤ 2 ^ 64)
    (hapart : ∀ i < 512 * 64, Apart place' (bootZslDtb + BitVec.ofNat 64 i)) (d : τ) :
    Chain image mem call a M₀ M₁ M₂ (gptBootPartElseRaw read a ⟨d, []⟩) := by
  have ht := himage.table
  have hchain := boot_chain h hok h' hok' ha hcall hmax ((hagree.signed hn ht).2 himage.signed)
    ((hagree.find hn ht).trans himage.zsl) ((hagree.find hn ht).trans himage.dtb)
    ((hagree.find hn ht).trans himage.fw) hapart d
  refine ⟨hchain.launch, hchain.zsl.of_agree hagree hn ht (find_isLeast himage.zsl).1.1
    (himage.within _ (by simp)), fun before gp d₁ hgp => ?_⟩
  obtain ⟨d₂, hmain, hready⟩ := hchain.ready before gp d₁ hgp
  exact ⟨d₂, hmain, hready.dtb.of_agree hagree hn ht (find_isLeast himage.dtb).1.1
    (himage.within _ (by simp)), hready.fw.of_agree hagree hn ht (find_isLeast himage.fw).1.1
    (himage.within _ (by simp))⟩

end Image

/-! ## An example -/

/-- The locals at the end of the scratchpad memory. -/
def stackPlace : Buf → U64
  | .sig => 0x1001FF00
  | .hf => 0x1001FF10
  | .dim => 0x1001FF20
  | .guid => 0x1001FF30
  | .ext p => p

/-- A disk with a boot loader in the blocks 34 to 37, a device tree in block 38, and firmware in
the blocks 39 and 40. -/
def systemDisk : Disk := fun a =>
  let field (start len x : ℕ) : Option Byte :=
    if start ≤ a.toNat ∧ a.toNat < start + len then some (byteOf x (a.toNat - start)) else none
  (field 0x200 8 0x5452415020494645 <|> field 0x248 8 2 <|> field 0x250 4 3 <|>
    field 0x254 4 128 <|>
    field 0x400 8 0x4CE4FD950269B26A <|> field 0x408 8 0x622C41011494CF98 <|>
    field 0x420 8 34 <|> field 0x428 8 37 <|>
    field 0x480 8 0x42DE2AEFBA442F61 <|> field 0x488 8 0x9DCB3A5DD7E43392 <|>
    field 0x4A0 8 38 <|> field 0x4A8 8 38 <|>
    field 0x500 8 0x4B0D3F5B99EC86DA <|> field 0x508 8 0x59F8A5CFBAC44B8F <|>
    field 0x520 8 39 <|> field 0x528 8 40).getD 0

/-- The callback of the boot ROM at its address. With another global pointer it does nothing. -/
def romCall {τ : Type} (a : BootArgs) (read : GptRead τ) : U64 → U64 → GptRead (U64 × τ) :=
  fun ptr priv buf addr len s =>
    if ptr = a.readPtr ∧ priv = a.priv ∧ s.1 = a.gp then
      ((read buf addr len s.2).1, (s.1, (read buf addr len s.2).2))
    else (⟨1, fun _ => 0⟩, s)

theorem romCall_relocated {τ : Type} (a : BootArgs) (read : GptRead τ) :
    Relocated (romCall a read) a read := fun _ _ _ _ => if_pos ⟨rfl, rfl, rfl⟩

theorem spmArgs_handover : Handover spmArgs :=
  ⟨by decide, by decide, by decide, by decide, by decide⟩

/-- The scratchpad memory is not where the device tree goes. -/
theorem stackPlace_apart {i : ℕ} (hi : i < 512 * 64) :
    Apart stackPlace (bootZslDtb + BitVec.ofNat 64 i) := by
  have hfar (p : U64) (hp : p.toNat < 0x20000000) :
      localSize ≤ (bootZslDtb + BitVec.ofNat 64 i - p).toNat := by
    rw [BitVec.toNat_sub, BitVec.toNat_add, BitVec.toNat_ofNat,
      show bootZslDtb.toNat = 0x80800000 from rfl, localSize]
    omega
  intro buf hbuf
  cases buf with
  | ext p =>
    rcases hbuf with hbuf | hbuf
    · exact Buf.noConfusion hbuf
    · exact hbuf.elim
  | _ => exact hfar _ (by decide)

theorem systemDisk_bootable : Bootable systemDisk (2 ^ 18) spmArgs 0 1 2 where
  signed := by decide +kernel
  table := ⟨by decide, by decide +kernel⟩
  zsl := by decide +kernel
  dtb := by decide +kernel
  fw := by decide +kernel
  within := by
    unfold PartWithin
    decide +kernel

end Cheshire.BootChain
