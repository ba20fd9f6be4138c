import Cheshire.Soc
import Mathlib.Tactic.Linarith

/-!
# AXI user signals of the atomics managers

The atomics units take the slice `[AxiUserAmoMsb:AxiUserAmoLsb]` of the user signal as the ID of a
reservation. Each core writes its number, counted from `CoreUserAmoOffs`, into the slice of
`AxiUserDefault`; the other managers send `AxiUserDefault` itself; what leaves over the serial link
has bit `SlinkUserAmoBit` set.

**Theorem (`atomicsIds_iff`).** The slices of different cores, local or remote, always differ. They
also differ from the slice of the managers without atomics unless `CoreUserAmoOffs` is 0, when the
slice of core 0 is the one that means "no atomics".
-/

namespace Cheshire

/-! ## User signals -/

/-- Ones in the bits `msb` to `lsb`. -/
def sliceMask (w msb lsb : ℕ) : BitVec w :=
  (BitVec.allOnes w <<< lsb) &&& ~~~(BitVec.allOnes w <<< (msb + 1))

/-- `x[msb:lsb] = v`. -/
def setSlice {w : ℕ} (x : BitVec w) (msb lsb : ℕ) (v : Doub) : BitVec w :=
  (x &&& ~~~sliceMask w msb lsb) ||| ((v.setWidth w <<< lsb) &&& sliceMask w msb lsb)

/-- The user signals of a request. -/
structure UserReq (n : ℕ) where
  aw : BitVec n
  w : BitVec n
  ar : BitVec n
deriving DecidableEq

inductive Chan
  | aw | w | ar
deriving DecidableEq

def UserReq.on {n : ℕ} (u : UserReq n) : Chan → BitVec n
  | .aw => u.aw
  | .w => u.w
  | .ar => u.ar

section Users

variable (cfg : SocCfg)

/-- The width of a user signal, as a number. -/
abbrev SocCfg.userWidth : ℕ := cfg.axiUserWidth.toNat

/-- What the debug module, the DMA engine and the VGA controller send. -/
def defaultUser : UserReq cfg.userWidth :=
  let user := cfg.axiUserDefault.setWidth _
  ⟨user, user, user⟩

/-- `core_ur_req`: what core `i` sends. -/
def coreUser (i : ℕ) : UserReq cfg.userWidth :=
  let amo (user : BitVec cfg.userWidth) :=
    setSlice user cfg.axiUserAmoMsb.toNat cfg.axiUserAmoLsb.toNat
      (cfg.coreUserAmoOffs + BitVec.ofNat 64 i)
  let user := defaultUser cfg
  { aw := amo user.aw, w := amo user.w, ar := amo user.ar }

/-- `slink_tx_uar_req`: what a request becomes on its way out over the serial link. -/
def slinkTxUser (user : UserReq cfg.userWidth) : UserReq cfg.userWidth :=
  let bit := BitVec.ofNat cfg.userWidth 1 <<< cfg.slinkUserAmoBit.toNat
  { aw := user.aw ||| bit, w := user.w ||| bit, ar := user.ar ||| bit }

/-- The slice that the atomics units look at. -/
def amoSlice (user : BitVec cfg.userWidth) :
    BitVec (cfg.axiUserAmoMsb.toNat - cfg.axiUserAmoLsb.toNat + 1) :=
  user.extractLsb cfg.axiUserAmoMsb.toNat cfg.axiUserAmoLsb.toNat

/-- The cores of this chip, and those of another one like it behind the serial link. -/
inductive AmoCore
  | here (i : ℕ)
  | remote (i : ℕ)
deriving DecidableEq

namespace AmoCore

def Exists : AmoCore → Prop
  | .here i | .remote i => i < cfg.numCores.toNat

def user : AmoCore → UserReq cfg.userWidth
  | .here i => coreUser cfg i
  | .remote i => slinkTxUser cfg (coreUser cfg i)

end AmoCore

end Users

/-- The conventions for the user signals. -/
structure AmoCfg (cfg : SocCfg) : Prop where
  lsb : cfg.axiUserAmoLsb ≤ cfg.axiUserAmoMsb
  msb : cfg.axiUserAmoMsb = cfg.slinkUserAmoBit
  slink : cfg.slinkUserAmoBit < cfg.axiUserWidth
  width : cfg.axiUserWidth.toNat ≤ 64
  cores : cfg.coreUserAmoOffs.toNat + cfg.numCores.toNat ≤
    2 ^ (cfg.axiUserAmoMsb.toNat - cfg.axiUserAmoLsb.toNat)
  default : ∀ c, amoSlice cfg ((defaultUser cfg).on c) = 0

/-- No two cores share a slice. -/
def CoresDiffer (cfg : SocCfg) : Prop :=
  ∀ m n : AmoCore, m.Exists cfg → n.Exists cfg → m ≠ n → ∀ c,
    amoSlice cfg ((m.user cfg).on c) ≠ amoSlice cfg ((n.user cfg).on c)

/-- No core has the slice of the managers without atomics. -/
def CoresAtomic (cfg : SocCfg) : Prop :=
  ∀ m : AmoCore, m.Exists cfg → ∀ c,
    amoSlice cfg ((m.user cfg).on c) ≠ amoSlice cfg ((defaultUser cfg).on c)

/-! ## Slices -/

theorem getLsbD_sliceMask (w msb lsb k : ℕ) :
    (sliceMask w msb lsb).getLsbD k = (decide (k < w) && decide (lsb ≤ k) && decide (k ≤ msb)) := by
  unfold sliceMask
  rw [BitVec.getLsbD_and, BitVec.getLsbD_not, BitVec.getLsbD_shiftLeft, BitVec.getLsbD_shiftLeft,
    BitVec.getLsbD_allOnes, BitVec.getLsbD_allOnes]
  grind

/-- Reading the slice just written. -/
theorem extractLsb_setSlice {w msb lsb : ℕ} (x : BitVec w) (v : Doub) (hle : lsb ≤ msb)
    (hw : msb < w) : (setSlice x msb lsb v).extractLsb msb lsb = v.setWidth (msb - lsb + 1) := by
  apply BitVec.eq_of_getLsbD_eq
  intro k hk
  unfold setSlice
  rw [BitVec.getLsbD_extractLsb, BitVec.getLsbD_or, BitVec.getLsbD_and, BitVec.getLsbD_and,
    BitVec.getLsbD_not, getLsbD_sliceMask, BitVec.getLsbD_shiftLeft, BitVec.getLsbD_setWidth,
    BitVec.getLsbD_setWidth]
  grind

section Slices

variable {cfg : SocCfg} (h : AmoCfg cfg)

include h

theorem AmoCfg.bounds : cfg.axiUserAmoLsb.toNat ≤ cfg.axiUserAmoMsb.toNat ∧
    cfg.axiUserAmoMsb.toNat < cfg.axiUserWidth.toNat := by
  refine ⟨h.lsb, ?_⟩
  rw [h.msb]
  exact h.slink

/-- The slice of a local core is its number, which leaves the top bit of the slice clear. -/
theorem slice_here {i : ℕ} (hi : i < cfg.numCores.toNat) (c : Chan) :
    (amoSlice cfg ((coreUser cfg i).on c)).toNat = cfg.coreUserAmoOffs.toNat + i := by
  obtain ⟨hle, hw⟩ := h.bounds
  have hwidth := h.width
  have hcores := h.cores
  have hhalf : 2 ^ (cfg.axiUserAmoMsb.toNat - cfg.axiUserAmoLsb.toNat) ≤ 2 ^ 63 :=
    Nat.pow_le_pow_right (by omega) (by omega)
  have hval : (cfg.coreUserAmoOffs + BitVec.ofNat 64 i).toNat = cfg.coreUserAmoOffs.toNat + i := by
    rw [BitVec.toNat_add, BitVec.toNat_ofNat]
    omega
  have hslice : amoSlice cfg ((coreUser cfg i).on c) =
      (cfg.coreUserAmoOffs + BitVec.ofNat 64 i).setWidth _ := by
    cases c <;> exact extractLsb_setSlice _ _ hle hw
  rw [hslice, BitVec.toNat_setWidth, hval, Nat.mod_eq_of_lt]
  rw [Nat.pow_succ]
  omega

/-- Over the serial link, the top bit of the slice is set. -/
theorem slice_remote {i : ℕ} (hi : i < cfg.numCores.toNat) (c : Chan) :
    (amoSlice cfg ((slinkTxUser cfg (coreUser cfg i)).on c)).toNat =
      2 ^ (cfg.axiUserAmoMsb.toNat - cfg.axiUserAmoLsb.toNat) +
        (cfg.coreUserAmoOffs.toNat + i) := by
  obtain ⟨hle, hw⟩ := h.bounds
  have hcores := h.cores
  have hbit : cfg.slinkUserAmoBit.toNat = cfg.axiUserAmoMsb.toNat :=
    congrArg BitVec.toNat h.msb.symm
  have hon : (slinkTxUser cfg (coreUser cfg i)).on c =
      (coreUser cfg i).on c ||| BitVec.twoPow _ cfg.axiUserAmoMsb.toNat := by
    rw [← hbit, BitVec.twoPow_eq]
    cases c <;> rfl
  have hor : amoSlice cfg ((slinkTxUser cfg (coreUser cfg i)).on c) =
      amoSlice cfg ((coreUser cfg i).on c) |||
        BitVec.twoPow _ (cfg.axiUserAmoMsb.toNat - cfg.axiUserAmoLsb.toNat) := by
    rw [hon]
    apply BitVec.eq_of_getLsbD_eq
    intro k hk
    unfold amoSlice
    rw [BitVec.getLsbD_extractLsb, BitVec.getLsbD_or, BitVec.getLsbD_or, BitVec.getLsbD_extractLsb,
      BitVec.getLsbD_twoPow, BitVec.getLsbD_twoPow]
    grind
  rw [hor, BitVec.toNat_or, slice_here h hi, BitVec.toNat_twoPow, Nat.mod_eq_of_lt]
  · have hlt : cfg.coreUserAmoOffs.toNat + i <
        2 ^ (cfg.axiUserAmoMsb.toNat - cfg.axiUserAmoLsb.toNat) := by omega
    rw [Nat.or_comm]
    simpa using (Nat.two_pow_add_eq_or_of_lt hlt 1).symm
  · exact Nat.pow_lt_pow_right (by omega) (by omega)

/-- Different cores have different slices. -/
theorem cores_differ : CoresDiffer cfg := by
  intro m n hm hn hne c heq
  have hcores := h.cores
  have hnum := congrArg BitVec.toNat heq
  cases m with
  | here i =>
    cases n with
    | here j =>
      have hij : i ≠ j := fun he => hne (congrArg AmoCore.here he)
      rw [AmoCore.user, AmoCore.user, slice_here h hm, slice_here h hn] at hnum
      omega
    | remote j =>
      change i < cfg.numCores.toNat at hm
      rw [AmoCore.user, AmoCore.user, slice_here h hm, slice_remote h hn] at hnum
      omega
  | remote i =>
    cases n with
    | here j =>
      change j < cfg.numCores.toNat at hn
      rw [AmoCore.user, AmoCore.user, slice_remote h hm, slice_here h hn] at hnum
      omega
    | remote j =>
      have hij : i ≠ j := fun he => hne (congrArg AmoCore.remote he)
      rw [AmoCore.user, AmoCore.user, slice_remote h hm, slice_remote h hn] at hnum
      omega

/-- The cores count as managers with atomics exactly if core 0 does. -/
theorem coresAtomic_iff : CoresAtomic cfg ↔ cfg.numCores = 0 ∨ cfg.coreUserAmoOffs ≠ 0 := by
  constructor
  · intro hatomic
    by_contra hcon
    obtain ⟨hcores, hoffs⟩ := not_or.1 hcon
    have hpos : 0 < cfg.numCores.toNat :=
      Nat.pos_of_ne_zero fun h0 => hcores (BitVec.eq_of_toNat_eq h0)
    refine hatomic (.here 0) hpos .aw (BitVec.eq_of_toNat_eq ?_)
    rw [h.default, AmoCore.user, slice_here h hpos, not_not.1 hoffs]
    rfl
  · intro hcond m hm c heq
    rw [h.default] at heq
    have hnum := congrArg BitVec.toNat heq
    have hzero : (0 : BitVec (cfg.axiUserAmoMsb.toNat - cfg.axiUserAmoLsb.toNat + 1)).toNat = 0 :=
      BitVec.toNat_zero
    have hpow := Nat.two_pow_pos (cfg.axiUserAmoMsb.toNat - cfg.axiUserAmoLsb.toNat)
    cases m with
    | here i =>
      rw [AmoCore.user, slice_here h hm, hzero] at hnum
      rcases hcond with hnone | hoffs
      · have hi : i < cfg.numCores.toNat := hm
        rw [hnone] at hi
        exact absurd hi (Nat.not_lt_zero i)
      · exact hoffs (BitVec.eq_of_toNat_eq (Nat.eq_zero_of_add_eq_zero_right hnum))
    | remote i =>
      rw [AmoCore.user, slice_remote h hm, hzero] at hnum
      omega

end Slices

/-! ## Main result -/

/-- **Main result.** The atomics units never take two managers for one exactly if there are no
cores or their numbers do not start at 0. -/
theorem atomicsIds_iff {cfg : SocCfg} (h : AmoCfg cfg) :
    CoresDiffer cfg ∧ CoresAtomic cfg ↔ cfg.numCores = 0 ∨ cfg.coreUserAmoOffs ≠ 0 := by
  rw [← coresAtomic_iff h]
  exact ⟨And.right, fun hatomic => ⟨cores_differ h, hatomic⟩⟩

theorem amoCfg_default : AmoCfg defaultSocCfg where
  lsb := by decide
  msb := rfl
  slink := by decide
  width := by decide
  cores := by decide
  default c := by cases c <;> decide

theorem atomicsIds_default : CoresDiffer defaultSocCfg ∧ CoresAtomic defaultSocCfg ↔
    defaultSocCfg.numCores = 0 ∨ defaultSocCfg.coreUserAmoOffs ≠ 0 :=
  atomicsIds_iff amoCfg_default

/-- With `DefaultCfg`, core 0 is taken for the debug module. -/
theorem default_core_not_atomic : AmoCfg defaultSocCfg ∧
    ¬(CoresDiffer defaultSocCfg ∧ CoresAtomic defaultSocCfg) := by
  refine ⟨amoCfg_default, fun hboth => ?_⟩
  have hcore : (AmoCore.here 0).Exists defaultSocCfg := show 0 < 1 by decide
  exact hboth.2 (.here 0) hcore .aw (by decide)

end Cheshire
