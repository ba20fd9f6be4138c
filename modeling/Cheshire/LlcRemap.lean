import Cheshire.Cva6

/-!
# The remap in front of the LLC: `axi_llc_remap_req`

The crossbar sends the cached and the uncached SPM window to the port of the LLC, next to the
LLC-out region. Before the LLC, the address of a request in the uncached window is replaced by the
address at the same offset in the cached window, by a mask of 26 bits.

**Theorem (`llcRemap_agrees`).** The remap agrees with the routing (`RemapAgrees`): it sends either
window into the cached one, leaves the LLC-out region alone, and does nothing the second time.
Addresses that are routed to the LLC become equal only if they name the same byte, unless the index
of an external rule wraps around, so that other regions lead to the LLC
(`wrappedIdx_collides`).
-/

namespace Cheshire

open Lib

/-! ## The remap -/

/-- The addresses of a request, in a system with addresses of `w` bits. -/
structure LlcReq (w : ℕ) where
  awAddr : BitVec w
  arAddr : BitVec w

/-- The address channels of a request. -/
inductive AddrChan
  | aw | ar
deriving DecidableEq

def LlcReq.addr {w : ℕ} (req : LlcReq w) : AddrChan → BitVec w
  | .aw => req.awAddr
  | .ar => req.arAddr

def amSpmRegionMask : Doub := 0x03FFFFFF

section Remap

variable {w : ℕ}

/-- The comparison and the new address are as wide as the wider of address and mask. -/
def remapAddr (addr : BitVec w) : BitVec w :=
  let x := addr.setWidth (max w 64)
  let mask := amSpmRegionMask.setWidth (max w 64)
  if x &&& ~~~mask = amSpmUnc.setWidth (max w 64) &&& ~~~mask then
    (amSpm.setWidth (max w 64) ||| (mask &&& x)).setWidth w
  else addr

/-- `axi_llc_remap_req`. -/
def axiLlcRemapReq (req : LlcReq w) : LlcReq w := ⟨remapAddr req.awAddr, remapAddr req.arAddr⟩

theorem axiLlcRemapReq_addr (req : LlcReq w) (ch : AddrChan) :
    (axiLlcRemapReq req).addr ch = remapAddr (req.addr ch) := by
  cases ch <;> rfl

end Remap

/-! ## The mask -/

section Mask

variable {n k : ℕ} (x : BitVec n)

theorem mask_toNat (h : k ≤ n) : (BitVec.ofNat n (2 ^ k - 1)).toNat = 2 ^ k - 1 := by
  have hpos := Nat.two_pow_pos k
  have hle := Nat.pow_le_pow_right (n := 2) (by decide) h
  rw [BitVec.toNat_ofNat, Nat.mod_eq_of_lt (by omega)]

theorem and_mask_toNat (h : k ≤ n) :
    (BitVec.ofNat n (2 ^ k - 1) &&& x).toNat = x.toNat % 2 ^ k := by
  rw [BitVec.toNat_and, mask_toNat h, Nat.and_comm, Nat.and_two_pow_sub_one_eq_mod]

theorem and_not_mask (h : k ≤ n) : x &&& ~~~BitVec.ofNat n (2 ^ k - 1) = (x >>> k) <<< k := by
  refine BitVec.eq_of_getLsbD_eq fun i hi => ?_
  have hmask : (BitVec.ofNat n (2 ^ k - 1)).getLsbD i = decide (i < k) := by
    rw [BitVec.getLsbD, mask_toNat h, Nat.testBit_two_pow_sub_one]
  rw [BitVec.getLsbD_and, BitVec.getLsbD_not, hmask, BitVec.getLsbD_shiftLeft,
    BitVec.getLsbD_ushiftRight]
  by_cases hik : i < k
  · simp [hik]
  · simp [hik, hi, Nat.add_sub_cancel' (Nat.le_of_not_lt hik)]

/-- What the mask cuts away is a quotient. -/
theorem and_not_mask_inj (h : k ≤ n) (y : BitVec n) :
    x &&& ~~~BitVec.ofNat n (2 ^ k - 1) = y &&& ~~~BitVec.ofNat n (2 ^ k - 1) ↔
      x.toNat / 2 ^ k = y.toNat / 2 ^ k := by
  have hquot (z : BitVec n) : ((z >>> k) <<< k).toNat = z.toNat / 2 ^ k * 2 ^ k := by
    have hle := Nat.div_mul_le_self z.toNat (2 ^ k)
    have hlt := z.isLt
    rw [BitVec.toNat_shiftLeft, BitVec.toNat_ushiftRight, Nat.shiftRight_eq_div_pow,
      Nat.shiftLeft_eq, Nat.mod_eq_of_lt (by omega)]
  rw [and_not_mask x h, and_not_mask y h, ← BitVec.toNat_inj, hquot, hquot]
  exact ⟨fun heq => Nat.eq_of_mul_eq_mul_right (Nat.two_pow_pos k) heq, fun heq => by rw [heq]⟩

end Mask

section Remap

variable {w : ℕ} (a b : BitVec w)

/-- The window of 64 MiB at `AmSpmUnc` is the one below it in the end. -/
theorem remapAddr_toNat :
    (remapAddr a).toNat = if a.toNat / 2 ^ 26 = 5 then a.toNat - 2 ^ 26 else a.toNat := by
  have hw : 2 ^ 64 ≤ 2 ^ max w 64 := Nat.pow_le_pow_right (by decide) (le_max_right _ _)
  have hmask : amSpmRegionMask.setWidth (max w 64) = BitVec.ofNat (max w 64) (2 ^ 26 - 1) := by
    refine BitVec.eq_of_toNat_eq ?_
    rw [mask_toNat (by omega), BitVec.toNat_setWidth]
    exact Nat.mod_eq_of_lt (lt_of_lt_of_le (by decide) hw)
  have hwide : (a.setWidth (max w 64)).toNat = a.toNat :=
    BitVec.toNat_setWidth_of_le (le_max_left _ _)
  have hunc : (amSpmUnc.setWidth (max w 64)).toNat = 5 * 2 ^ 26 := by
    rw [BitVec.toNat_setWidth]
    exact Nat.mod_eq_of_lt (lt_of_lt_of_le (by decide) hw)
  have hspm : (amSpm.setWidth (max w 64)).toNat = 2 ^ 26 * 4 := by
    rw [BitVec.toNat_setWidth]
    exact Nat.mod_eq_of_lt (lt_of_lt_of_le (by decide) hw)
  have hlt := a.isLt
  unfold remapAddr
  simp only [hmask]
  rw [if_congr (and_not_mask_inj _ (by omega) _) rfl rfl, hwide, hunc]
  by_cases hin : a.toNat / 2 ^ 26 = 5
  · rw [if_pos hin, if_pos (by omega), BitVec.toNat_setWidth, BitVec.toNat_or,
      and_mask_toNat _ (by omega), hwide, hspm,
      ← Nat.two_pow_add_eq_or_of_lt (Nat.mod_lt _ (Nat.two_pow_pos 26)),
      Nat.mod_eq_of_lt (by omega)]
    omega
  · rw [if_neg hin, if_neg (by omega)]

theorem remapAddr_idem : remapAddr (remapAddr a) = remapAddr a := by
  refine BitVec.eq_of_toNat_eq ?_
  rw [remapAddr_toNat (remapAddr a), remapAddr_toNat a]
  split_ifs <;> omega

/-- Two addresses are remapped to one if they are the same, or 64 MiB apart in the two windows. -/
theorem remapAddr_eq_iff : remapAddr a = remapAddr b ↔ a = b ∨
    (a.toNat / 2 ^ 26 = 4 ∧ b.toNat = a.toNat + 2 ^ 26) ∨
    (b.toNat / 2 ^ 26 = 4 ∧ a.toNat = b.toNat + 2 ^ 26) := by
  rw [← BitVec.toNat_inj, ← BitVec.toNat_inj, remapAddr_toNat, remapAddr_toNat]
  split_ifs <;> omega

end Remap

/-! ## What is routed to the LLC -/

section Routed

variable (cfg : SocCfg)

/-- There is an LLC with its own port, its SPM fits into the windows, and the LLC-out region is
behind them. -/
structure LlcFits : Prop where
  notBypass : cfg.llcNotBypass = true
  outConnect : cfg.llcOutConnect = true
  size : (getLlcSize cfg.toCheshireCfg).toNat ≤ 0x04000000
  out : 0x20000000 ≤ cfg.llcOutRegionStart.toNat

def cachedSpm : Rule Unit ℕ := addrRange amSpm (amSpm + sizeSpm cfg)

def uncachedSpm : Rule Unit ℕ := addrRange amSpmUnc (amSpmUnc + sizeSpm cfg)

def llcOut : Rule Unit ℕ := addrRange cfg.llcOutRegionStart cfg.llcOutRegionEnd

/-- The map of the crossbar routes the address to the LLC port. -/
def ToLlc {w : ℕ} (a : BitVec w) : Prop :=
  Routes ((genAxiOut cfg.toCheshireCfg).rules.map ARul.rule) a.toNat
    (genAxiOut cfg.toCheshireCfg).ports.llc

/-- `b` has the offset in the uncached window that `a` has in the cached one. -/
def SameOffset {w : ℕ} (a b : BitVec w) : Prop :=
  (cachedSpm cfg).Contains a.toNat ∧ (uncachedSpm cfg).Contains b.toNat ∧
    a.toNat - amSpm.toNat = b.toNat - amSpmUnc.toNat

structure RemapAgrees (w : ℕ) : Prop where
  spm : ∀ (req : LlcReq w) ch, ToLlc cfg (req.addr ch) →
    (cachedSpm cfg).Contains (req.addr ch).toNat ∨
      (uncachedSpm cfg).Contains (req.addr ch).toNat →
    (cachedSpm cfg).Contains ((axiLlcRemapReq req).addr ch).toNat
  out : ∀ (req : LlcReq w) ch, ToLlc cfg (req.addr ch) → (llcOut cfg).Contains (req.addr ch).toNat →
    (axiLlcRemapReq req).addr ch = req.addr ch
  collide : IdxFits cfg → ∀ (req req' : LlcReq w) ch ch', ToLlc cfg (req.addr ch) →
    ToLlc cfg (req'.addr ch') →
    ((axiLlcRemapReq req).addr ch = (axiLlcRemapReq req').addr ch' ↔
      req.addr ch = req'.addr ch' ∨ SameOffset cfg (req.addr ch) (req'.addr ch') ∨
        SameOffset cfg (req'.addr ch') (req.addr ch))
  idem : ∀ req : LlcReq w, axiLlcRemapReq (axiLlcRemapReq req) = axiLlcRemapReq req

variable {cfg}

theorem spm_window (h : LlcFits cfg) (base : Doub) (hbase : base.toNat ≤ 0x14000000) (a : ℕ) :
    (addrRange base (base + sizeSpm cfg)).Contains a ↔
      base.toNat ≤ a ∧ a < base.toNat + (getLlcSize cfg.toCheshireCfg).toNat := by
  have hsize := h.size
  have hwide : (sizeSpm cfg).toNat = (getLlcSize cfg.toCheshireCfg).toNat :=
    BitVec.toNat_setWidth_of_le (by decide)
  have hend : (base + sizeSpm cfg).toNat = base.toNat + (getLlcSize cfg.toCheshireCfg).toNat := by
    rw [BitVec.toNat_add, hwide, Nat.mod_eq_of_lt (by omega)]
  show base.toNat ≤ a ∧ a < (base + sizeSpm cfg).toNat ↔ _
  rw [hend]

/-- The crossbar's own rules for the LLC port. -/
theorem llc_rules (h : LlcFits cfg) : ∀ r ∈ axiInternalRules cfg.toCheshireCfg,
    r.idx = (genAxiInternal cfg.toCheshireCfg).ret.llc →
      (r.start, r.pte) = (amSpm, amSpm + sizeSpm cfg) ∨
        (r.start, r.pte) = (amSpmUnc, amSpmUnc + sizeSpm cfg) ∨
        (r.start, r.pte) = (cfg.llcOutRegionStart, cfg.llcOutRegionEnd) := by
  unfold axiInternalRules genAxiInternal
  rw [h.notBypass, h.outConnect]
  generalize cfg.dma = dma
  generalize cfg.serialLink = slink
  cases dma <;> cases slink <;> simp [opt, Gen.port, Gen.rule, aw, sizeSpm]

theorem llc_port (h : LlcFits cfg) :
    (genAxiInternal cfg.toCheshireCfg).ret.llc.toNat ≤ (genAxiInternal cfg.toCheshireCfg).i ∧
      (genAxiInternal cfg.toCheshireCfg).ret.llc ≠ 1 := by
  unfold genAxiInternal
  rw [h.notBypass, h.outConnect]
  generalize cfg.dma = dma
  generalize cfg.serialLink = slink
  cases dma <;> cases slink <;> simp [Gen.port, Gen.rule, aw]

/-- If no index wraps around, the LLC gets the two windows and the LLC-out region. -/
theorem toLlc_regions (h : LlcFits cfg) (hfits : IdxFits cfg) {w : ℕ} {a : BitVec w}
    (ha : ToLlc cfg a) : (cachedSpm cfg).Contains a.toNat ∨ (uncachedSpm cfg).Contains a.toNat ∨
      (llcOut cfg).Contains a.toNat := by
  unfold ToLlc at ha
  rw [axiOut_ports] at ha
  obtain ⟨r, hr, hidx, hcontains⟩ := own_routed hfits (llc_port h).1 (llc_port h).2 ha
  rcases llc_rules h r hr hidx with hrange | hrange | hrange
  all_goals
    obtain ⟨hstart, hpte⟩ := Prod.mk.inj hrange
    unfold ARul.rule at hcontains
    rw [hstart, hpte] at hcontains
  · exact Or.inl hcontains
  · exact Or.inr (Or.inl hcontains)
  · exact Or.inr (Or.inr hcontains)

/-- **Main result.** The remap agrees with the routing. -/
theorem llcRemap_agrees (h : LlcFits cfg) (w : ℕ) : RemapAgrees cfg w := by
  have hsize := h.size
  have hout := h.out
  have hcached := spm_window h amSpm (by decide)
  have huncached := spm_window h amSpmUnc (by decide)
  have hspm : amSpm.toNat = 4 * 2 ^ 26 := rfl
  have hunc : amSpmUnc.toNat = 5 * 2 ^ 26 := rfl
  have hllc (a : ℕ) : (llcOut cfg).Contains a ↔ cfg.llcOutRegionStart.toNat ≤ a ∧
    a < cfg.llcOutRegionEnd.toNat := Iff.rfl
  rw [hspm] at hcached
  rw [hunc] at huncached
  constructor
  · intro req ch _ hwin
    rw [axiLlcRemapReq_addr]
    unfold cachedSpm uncachedSpm at *
    rw [hcached, huncached] at hwin
    rw [hcached, remapAddr_toNat]
    split_ifs <;> omega
  · intro req ch _ hin
    have hlow := ((hllc _).mp hin).1
    rw [axiLlcRemapReq_addr]
    refine BitVec.eq_of_toNat_eq ?_
    rw [remapAddr_toNat, if_neg (by omega)]
  · intro hfits req req' ch ch' ha hb
    have hregions := toLlc_regions h hfits ha
    have hregions' := toLlc_regions h hfits hb
    rw [axiLlcRemapReq_addr, axiLlcRemapReq_addr, remapAddr_eq_iff, SameOffset, SameOffset]
    unfold cachedSpm uncachedSpm at *
    rw [hcached, huncached, hllc] at hregions hregions'
    rw [hcached, huncached, hcached, huncached, hspm, hunc]
    refine or_congr Iff.rfl (or_congr ?_ ?_)
    · omega
    · omega
  · intro req
    exact congrArg₂ LlcReq.mk (remapAddr_idem _) (remapAddr_idem _)

end Routed

theorem llcFits_default : LlcFits defaultSocCfg where
  notBypass := rfl
  outConnect := rfl
  size := by decide
  out := by decide

theorem llcRemap_agrees_ext : IdxFits extSocCfg ∧ RemapAgrees extSocCfg 48 := by
  have hfits : LlcFits extSocCfg := ⟨rfl, rfl, llcFits_default.size, llcFits_default.out⟩
  exact ⟨idxFits_ext, llcRemap_agrees hfits 48⟩

/-- Two external regions behind the SPM, 64 MiB apart, whose rules add 61 to `ext_base` = 5 in
6 bits. -/
def aliasCfg : SocCfg :=
  { defaultSocCfg with
    axiExtNumSlv := 1
    axiExtNumRules := 2
    axiExtRegionIdx := fun _ => 61
    axiExtRegionStart := fun k => if k = 0 then 0x10100000 else 0x14100000
    axiExtRegionEnd := fun k => if k = 0 then 0x10101000 else 0x14101000 }

theorem aliasCfg_toLlc {k : ℕ} (hk : k < 2) {w : ℕ} {a : BitVec w}
    (ha : (addrRange (aliasCfg.axiExtRegionStart k)
      (aliasCfg.axiExtRegionEnd k)).Contains a.toNat) :
    ToLlc aliasCfg a := by
  have hidx : aw ((genAxiOut aliasCfg.toCheshireCfg).extBase.toNat + (61 : BitVec 8).toNat) =
      (genAxiOut aliasCfg.toCheshireCfg).ports.llc := by decide
  unfold ToLlc
  rw [axiOut_rules]
  refine ⟨(axiExtRule aliasCfg.toCheshireCfg (genAxiOut aliasCfg.toCheshireCfg).extBase k).rule,
    ?_, ha, hidx⟩
  refine List.mem_map_of_mem (List.mem_append_left _ (List.mem_append_right _ ?_))
  exact List.mem_map_of_mem (List.mem_range.2 hk)

/-- The rules lead to the LLC, and the remap makes one address of two that are in neither SPM
window. -/
theorem wrappedIdx_collides : LlcFits aliasCfg ∧ ∃ req : LlcReq 48,
    ToLlc aliasCfg (req.addr .aw) ∧ ToLlc aliasCfg (req.addr .ar) ∧
      (axiLlcRemapReq req).addr .aw = (axiLlcRemapReq req).addr .ar ∧
      ¬(req.addr .aw = req.addr .ar ∨ SameOffset aliasCfg (req.addr .aw) (req.addr .ar) ∨
        SameOffset aliasCfg (req.addr .ar) (req.addr .aw)) ∧
      ¬(cachedSpm aliasCfg).Contains ((axiLlcRemapReq req).addr .aw).toNat := by
  have hfits : LlcFits aliasCfg := ⟨rfl, rfl, llcFits_default.size, llcFits_default.out⟩
  refine ⟨hfits, ⟨0x10100000, 0x14100000⟩,
    aliasCfg_toLlc (k := 0) (by decide) ⟨by decide, by decide⟩,
    aliasCfg_toLlc (k := 1) (by decide) ⟨by decide, by decide⟩, ?_, ?_, ?_⟩
  · rw [axiLlcRemapReq_addr, axiLlcRemapReq_addr, remapAddr_eq_iff]
    exact Or.inr (Or.inl (by decide))
  · rintro (heq | ⟨⟨-, hin⟩, -⟩ | ⟨⟨-, hin⟩, -⟩)
    · exact absurd heq (by decide)
    · exact absurd hin (by decide)
    · exact absurd hin (by decide)
  · rw [axiLlcRemapReq_addr]
    rintro ⟨-, hin⟩
    exact absurd hin (by decide)

end Cheshire
