import Cheshire.GptTable
import Mathlib.Tactic.SplitIfs

/-!
# Booting from a disk: failures, and the size of the copy

The runs of `gpt_boot_part_else_raw` for an arbitrary callback, as the events they leave in the
log.

**Theorem (`gptBootPartElseRaw_failures`).** If a read other than the signature probe fails, its
code is returned and nothing is launched. Otherwise the reads of the search (`Searched`) are
followed by the copy of the range that it leaves, the three scratch registers and one launch. A
failing probe has the effect of a missing signature.

**Theorem (`gptBootPartElseRaw_copyBounded_iff`).** The copy stays within `max_lbas` blocks except
when the search falls back to the first entry of the table and the range of that entry is
inverted (`Inverted`): the chunk of at most `max_lbas` blocks then ends before it begins, and its
length wraps around.
-/

namespace Cheshire.Gpt

open Lib

variable {σ : Type}

/-! ## The log of a search -/

/-- A read of the partition table that returned `c`. -/
def TableRead (c : CInt) (e : Event) : Prop :=
  ∃ buf addr len, Buf.Table buf ∧ e = .read buf addr len c

/-- The log has grown by reads of the table that succeeded. -/
def Grows (s s' : Boot σ) : Prop :=
  ∃ log, s'.log = s.log ++ log ∧ ∀ e ∈ log, TableRead 0 e

/-- The log has grown by reads of the table, and the last one has failed with `c`. -/
def GrowsFailing (s : Boot σ) (c : CInt) (s' : Boot σ) : Prop :=
  c ≠ 0 ∧ ∃ log e, s'.log = s.log ++ log ++ [e] ∧ (∀ e ∈ log, TableRead 0 e) ∧ TableRead c e

theorem logged_eq (read : GptRead σ) (buf : Buf) (addr len : U64) (s : Boot σ) :
    logged read buf addr len s = ((read buf addr len s.dev).1, ⟨(read buf addr len s.dev).2,
      s.log ++ [.read buf addr len (read buf addr len s.dev).1.ret]⟩) := rfl

theorem logged_closed (read : GptRead σ) : ReadClosed (logged read) Grows GrowsFailing where
  refl s := ⟨[], (List.append_nil _).symm, fun e he => absurd he List.not_mem_nil⟩
  trans := by
    rintro s s₁ s₂ ⟨l₁, h₁, hl₁⟩ ⟨l₂, h₂, hl₂⟩
    refine ⟨l₁ ++ l₂, by rw [h₂, h₁, List.append_assoc], fun e he => ?_⟩
    exact (List.mem_append.1 he).elim (hl₁ e) (hl₂ e)
  fail := by
    rintro s s₁ c s₂ ⟨l₁, h₁, hl₁⟩ ⟨hc, l₂, e, h₂, hl₂, he⟩
    refine ⟨hc, l₁ ++ l₂, e, by simp only [h₂, h₁, List.append_assoc], fun e he => ?_, he⟩
    exact (List.mem_append.1 he).elim (hl₁ e) (hl₂ e)
  reads := by
    intro buf addr len s data s' hread hbuf
    rw [Reads, logged_eq, Prod.mk.injEq] at hread
    obtain ⟨hr, rfl⟩ := hread
    refine ⟨[.read buf addr len 0], by rw [hr], fun e he => ?_⟩
    exact ⟨buf, addr, len, hbuf, List.mem_singleton.1 he⟩
  fails := by
    rintro buf addr len s c s' ⟨hc, data, hread⟩ hbuf
    rw [logged_eq, Prod.mk.injEq] at hread
    obtain ⟨hr, rfl⟩ := hread
    refine ⟨hc, [], .read buf addr len c, by rw [hr, List.append_nil], ?_, buf, addr, len, hbuf,
      rfl⟩
    exact fun e he => absurd he List.not_mem_nil

/-! ## The runs -/

section Run

variable (read : GptRead σ) (a : BootArgs) (s : σ)

/-- The state after the signature probe. -/
def afterProbe : Boot σ := (logged read .sig 0x200 8 ⟨s, []⟩).2

/-- The probe finds the signature. -/
def Signed : Prop :=
  (read .sig 0x200 8 s).1.ret = 0 ∧ u64At (read .sig 0x200 8 s).1.data 0 = efiPart

theorem afterProbe_log :
    (afterProbe read s).log = [.read .sig 0x200 8 (read .sig 0x200 8 s).1.ret] := rfl

theorem gptCheckSignature_logged :
    (gptCheckSignature (logged read) ⟨s, []⟩).2 = afterProbe read s ∧
      ((gptCheckSignature (logged read) ⟨s, []⟩).1 = true ↔ Signed read s) := by
  unfold gptCheckSignature Signed afterProbe
  rw [logged_eq]
  dsimp only
  by_cases h : (read .sig 0x200 8 s).1.ret = 0
  · rw [if_neg (not_not.2 h)]
    exact ⟨rfl, by rw [beq_iff_eq]; exact ⟨fun hsig => ⟨h, hsig⟩, fun hsig => hsig.2⟩⟩
  · rw [if_pos h]
    exact ⟨rfl, fun hsig => Bool.noConfusion hsig, fun hsig => absurd hsig.1 h⟩

/-- The outputs before the search: the raw image at the start of the disk. -/
def rawOut : FindOut := ⟨0, 0, a.maxLbas - 1⟩

/-- The runs of `gpt_boot_part_else_raw`. -/
inductive BootRun : CInt × Boot σ → Prop
  | raw : ¬Signed read s →
      BootRun (copyAndBoot read a 0 (a.maxLbas - 1) (afterProbe read s))
  | searchFails {c : CInt} {out : FindOut} {s' : Boot σ} : Signed read s →
      FindRun (logged read) a.maxLbas a.tguid a.pguid (afterProbe read s) (rawOut a) c out s' →
      c ≠ 0 → BootRun (c, s')
  | searched {out : FindOut} {s' : Boot σ} : Signed read s →
      FindRun (logged read) a.maxLbas a.tguid a.pguid (afterProbe read s) (rawOut a) 0 out s' →
      BootRun (copyAndBoot read a out.lbaBegin out.lbaEnd s')

theorem gptBootPartElseRaw_eq : gptBootPartElseRaw read a ⟨s, []⟩ =
    if (gptCheckSignature (logged read) ⟨s, []⟩).1 then
      let r := gptFindPartition (logged read) a.maxLbas a.tguid a.pguid
        ⟨afterProbe read s, rawOut a⟩
      if r.1 ≠ 0 then (r.1, r.2.dev) else
      copyAndBoot read a r.2.out.lbaBegin r.2.out.lbaEnd r.2.dev
    else copyAndBoot read a 0 (a.maxLbas - 1) (afterProbe read s) := by
  rw [← (gptCheckSignature_logged read s).1]
  rfl

theorem bootRun : BootRun read a s (gptBootPartElseRaw read a ⟨s, []⟩) := by
  obtain ⟨-, hsig⟩ := gptCheckSignature_logged read s
  rw [gptBootPartElseRaw_eq]
  by_cases h : Signed read s
  · rw [if_pos (hsig.2 h)]
    obtain ⟨c, out, s', hrun⟩ := findRun_total (logged read) a.maxLbas a.tguid a.pguid
      (afterProbe read s) (rawOut a)
    rw [hrun.run]
    dsimp only
    by_cases hc : c = 0
    · subst hc
      rw [if_neg (not_not.2 rfl)]
      exact .searched h hrun
    · rw [if_pos hc]
      exact .searchFails h hrun hc
  · rw [if_neg fun hs => h (hsig.1 hs)]
    exact .raw h

end Run

/-! ## The reads of a search -/

section SearchReads

variable (maxLbas : U64) (tguid pguid : Option Guid) (hf : HdrFields)

/-- The read of the header, when it succeeds. -/
def headerRead : Event := .read .hf (0x200 + 0x48) 16 0

/-- The read of the size fields of entry `p`. -/
def sizeRead (p : ℕ) : Event := .read .dim (peOffs hf p + 0x20) 16 0

/-- The read of the GUID at `addr`, if one is asked for. -/
def guidRead (g : Option Guid) (addr : U64) : List Event :=
  if g.isSome then [.read .guid addr 16 0] else []

/-- All reads of entry `p`, whose size fields are `d`. -/
def entryReads (p : ℕ) (d : PartFields) : List Event :=
  sizeRead hf p :: if d.Fits maxLbas then
    guidRead tguid (peOffs hf p) ++ guidRead pguid (peOffs hf p + 0x10) else []

/-- All reads of the first entries, whose size fields are `ds`. -/
def tableReads (ds : List PartFields) : List Event :=
  (ds.mapIdx (entryReads maxLbas tguid pguid hf)).flatten

variable {maxLbas tguid pguid hf} {read : GptRead σ} {s s' : Boot σ} {p : ℕ} {d : PartFields}

theorem tableReads_snoc (ds : List PartFields) (d : PartFields) :
    tableReads maxLbas tguid pguid hf (ds ++ [d]) =
      tableReads maxLbas tguid pguid hf ds ++ entryReads maxLbas tguid pguid hf ds.length d := by
  simp [tableReads, List.mapIdx_concat]

theorem Reads.of_logged {buf : Buf} {addr len : U64} {data : ℕ → Byte}
    (h : Reads (logged read) buf addr len s data s') :
    Reads read buf addr len s.dev data s'.dev ∧ s'.log = s.log ++ [.read buf addr len 0] := by
  rw [Reads, logged_eq, Prod.mk.injEq] at h
  obtain ⟨hr, rfl⟩ := h
  exact ⟨Prod.ext hr rfl, by rw [hr]⟩

theorem Compares.of_logged {g : Option Guid} {addr : U64} {b : Bool}
    (h : Compares (logged read) g addr s b s') :
    Compares read g addr s.dev b s'.dev ∧ s'.log = s.log ++ guidRead g addr := by
  cases h with
  | null => exact ⟨.null, (List.append_nil _).symm⟩
  | read hread => exact ⟨.read hread.of_logged.1, hread.of_logged.2⟩

theorem Sized.of_logged (h : Sized (logged read) hf p s d s') :
    Sized read hf p s.dev d s'.dev ∧ s'.log = s.log ++ [sizeRead hf p] := by
  obtain ⟨data, hread, rfl⟩ := h
  exact ⟨⟨data, hread.of_logged.1, rfl⟩, hread.of_logged.2⟩

theorem Header.of_logged (h : Header (logged read) s hf s') :
    Header read s.dev hf s'.dev ∧ s'.log = s.log ++ [headerRead] := by
  obtain ⟨data, hread, rfl⟩ := h
  exact ⟨⟨data, hread.of_logged.1, rfl⟩, hread.of_logged.2⟩

theorem Skipped.of_logged (h : Skipped (logged read) maxLbas tguid pguid hf p s d s') :
    Skipped read maxLbas tguid pguid hf p s.dev d s'.dev ∧
      s'.log = s.log ++ entryReads maxLbas tguid pguid hf p d := by
  cases h with
  | tooLarge hd hfit =>
    obtain ⟨hd, hlog⟩ := hd.of_logged
    exact ⟨.tooLarge hd hfit, by rw [hlog, entryReads, if_neg hfit]⟩
  | noMatch hd hfit ht hp =>
    obtain ⟨hd, hlog⟩ := hd.of_logged
    obtain ⟨ht, hlogt⟩ := ht.of_logged
    obtain ⟨hp, hlogp⟩ := hp.of_logged
    refine ⟨.noMatch hd hfit ht hp, ?_⟩
    rw [hlogp, hlogt, hlog, entryReads, if_pos hfit]
    simp only [List.append_assoc, List.cons_append, List.nil_append]

theorem Passed.of_logged {ds : List PartFields}
    (h : Passed (logged read) maxLbas tguid pguid hf ds s s') :
    Passed read maxLbas tguid pguid hf ds s.dev s'.dev ∧
      s'.log = s.log ++ tableReads maxLbas tguid pguid hf ds := by
  induction h with
  | nil => exact ⟨.nil, (List.append_nil _).symm⟩
  | snoc _ hskip ih =>
    obtain ⟨hp, hlog⟩ := ih
    obtain ⟨hskip, hlogs⟩ := hskip.of_logged
    exact ⟨hp.snoc hskip, by rw [hlogs, hlog, tableReads_snoc, List.append_assoc]⟩

end SearchReads

section Searched

variable (read : GptRead σ) (a : BootArgs) (s : σ)

instance : Decidable (Signed read s) := by
  unfold Signed
  infer_instance

/-- What `gpt_boot_part_else_raw` has before its copy: the result and the outputs of
`gpt_find_partition`, and the reads so far. Without a signature there is no search. -/
def searchEnd : CInt × Find (Boot σ) :=
  if Signed read s then
    gptFindPartition (logged read) a.maxLbas a.tguid a.pguid ⟨afterProbe read s, rawOut a⟩
  else (0, ⟨afterProbe read s, rawOut a⟩)

/-- The reads up to the copy, and the range to copy: after the probe, the header, the entries
passed, and the entry chosen, of which the second GUID is read only if the first is another. -/
inductive Searched : List Event → FindOut → Prop
  | raw : ¬Signed read s → Searched (afterProbe read s).log (rawOut a)
  | byType {hf : HdrFields} {ds : List PartFields} {d : PartFields} {s₁ s₂ s₃ s₄ : σ} :
      Signed read s → Header read (afterProbe read s).dev hf s₁ → ds.length < hf.count.toNat →
      Passed read a.maxLbas a.tguid a.pguid hf ds s₁ s₂ → Sized read hf ds.length s₂ d s₃ →
      d.Fits a.maxLbas → Compares read a.tguid (peOffs hf ds.length) s₃ true s₄ →
      Searched ((afterProbe read s).log ++ [headerRead] ++
        tableReads a.maxLbas a.tguid a.pguid hf ds ++ [sizeRead hf ds.length] ++
        guidRead a.tguid (peOffs hf ds.length)) ⟨ds.length, d.lbaBegin, d.lbaEnd⟩
  | byPart {hf : HdrFields} {ds : List PartFields} {d : PartFields} {s₁ s₂ s₃ s₄ s₅ : σ} :
      Signed read s → Header read (afterProbe read s).dev hf s₁ → ds.length < hf.count.toNat →
      Passed read a.maxLbas a.tguid a.pguid hf ds s₁ s₂ → Sized read hf ds.length s₂ d s₃ →
      d.Fits a.maxLbas → Compares read a.tguid (peOffs hf ds.length) s₃ false s₄ →
      Compares read a.pguid (peOffs hf ds.length + 0x10) s₄ true s₅ →
      Searched ((afterProbe read s).log ++ [headerRead] ++
        tableReads a.maxLbas a.tguid a.pguid hf ds ++ [sizeRead hf ds.length] ++
        guidRead a.tguid (peOffs hf ds.length) ++
        guidRead a.pguid (peOffs hf ds.length + 0x10)) ⟨ds.length, d.lbaBegin, d.lbaEnd⟩
  | notFound {hf : HdrFields} {ds : List PartFields} {s₁ s₂ : σ} :
      Signed read s → Header read (afterProbe read s).dev hf s₁ → ds.length = hf.count.toNat →
      Passed read a.maxLbas a.tguid a.pguid hf ds s₁ s₂ →
      Searched ((afterProbe read s).log ++ [headerRead] ++
          tableReads a.maxLbas a.tguid a.pguid hf ds)
        { recordedAll a.maxLbas ds (rawOut a) with partIdx := -1 }

variable {read a s}

theorem searchEnd_raw (h : ¬Signed read s) :
    searchEnd read a s = (0, ⟨afterProbe read s, rawOut a⟩) := if_neg h

theorem searchEnd_search (h : Signed read s) {c : CInt} {out : FindOut} {s' : Boot σ}
    (hrun : FindRun (logged read) a.maxLbas a.tguid a.pguid (afterProbe read s) (rawOut a) c out
      s') : searchEnd read a s = (c, ⟨s', out⟩) :=
  (if_pos h).trans hrun.run

/-- The reads of a search that returns 0. -/
theorem FindRun.searched (h : Signed read s) {out : FindOut} {s' : Boot σ}
    (hrun : FindRun (logged read) a.maxLbas a.tguid a.pguid (afterProbe read s) (rawOut a) 0 out
      s') : Searched read a s s'.log out := by
  cases hrun with
  | headerFails hhdr => exact absurd rfl hhdr.1
  | found hhdr hlen hp hc =>
    obtain ⟨hhdr, hlogh⟩ := hhdr.of_logged
    obtain ⟨hp, hlogp⟩ := hp.of_logged
    cases hc with
    | tguid hd hfit ht =>
      obtain ⟨hd, hlogd⟩ := hd.of_logged
      obtain ⟨ht, hlogt⟩ := ht.of_logged
      rw [hlogt, hlogd, hlogp, hlogh]
      exact .byType h hhdr hlen hp hd hfit ht
    | pguid hd hfit ht hg =>
      obtain ⟨hd, hlogd⟩ := hd.of_logged
      obtain ⟨ht, hlogt⟩ := ht.of_logged
      obtain ⟨hg, hlogg⟩ := hg.of_logged
      rw [hlogg, hlogt, hlogd, hlogp, hlogh]
      exact .byPart h hhdr hlen hp hd hfit ht hg
  | notFound hhdr hlen hp =>
    obtain ⟨hhdr, hlogh⟩ := hhdr.of_logged
    obtain ⟨hp, hlogp⟩ := hp.of_logged
    rw [hlogp, hlogh]
    exact .notFound h hhdr hlen hp
  | entryFails _ _ _ hfail => exact absurd rfl hfail.nonzero

end Searched

/-! ## Failures -/

section Failures

variable (read : GptRead σ) (a : BootArgs) (s : σ)

def Event.IsRead : Event → Prop
  | .read .. => True
  | _ => False

/-- What a read has returned. -/
def Event.code : Event → CInt
  | .read _ _ _ c => c
  | _ => 0

/-- A read that is not the copy into `code_buf`. -/
def Event.IsOther (e : Event) : Prop :=
  ∃ buf addr len c, e = .read buf addr len c ∧ buf ≠ .ext a.codeBuf

/-- The length of a copy. -/
def copyLen (lbaBegin lbaEnd : U64) : U64 := 0x200 * (lbaEnd - lbaBegin + 1)

/-- Everything that follows a copy of `len` bytes from `addr`. -/
def launch (addr len : U64) : List Event :=
  [.read (.ext a.codeBuf) addr len 0, .scratch 0 ((a.readPtr ||| 1).setWidth 32),
    .scratch 1 (a.priv.setWidth 32), .scratch 3 (a.gp.setWidth 32), .bootNextStage a.codeBuf]

/-- The ways a boot can end: a read other than the probe has failed, its code is returned, and
nothing but reads has happened; or all of these reads have succeeded and the next stage is
started after the last of them, the copy of the range that the search has left. -/
inductive BootEnd : CInt × Boot σ → Prop
  | failed {c : CInt} {s' : Boot σ} {log : List Event} {buf : Buf} {addr len : U64} :
      c ≠ 0 → buf ≠ .sig → s'.log = log ++ [.read buf addr len c] → (∀ e ∈ log, e.IsOther a) →
      (∀ b x l d, .read b x l d ∈ log → b ≠ .sig → d = 0) → BootEnd (c, s')
  | launched {out : FindOut} {s₁ s' : Boot σ} :
      searchEnd read a s = (0, ⟨s₁, out⟩) → Searched read a s s₁.log out →
      s'.log = s₁.log ++ launch a (0x200 * out.lbaBegin) (copyLen out.lbaBegin out.lbaEnd) →
      (∀ e ∈ s₁.log, e.IsOther a) →
      (∀ b x l d, .read b x l d ∈ s₁.log → b ≠ .sig → d = 0) → BootEnd (a.stageRet, s')

variable {read a s}

theorem TableRead.isOther {c : CInt} {e : Event} (h : TableRead c e) : e.IsOther a := by
  obtain ⟨buf, addr, len, hbuf, rfl⟩ := h
  refine ⟨buf, addr, len, c, rfl, ?_⟩
  rintro rfl
  exact hbuf

theorem TableRead.code {c d : CInt} {buf : Buf} {addr len : U64}
    (h : TableRead c (.read buf addr len d)) : d = c := by
  obtain ⟨_, _, _, _, he⟩ := h
  exact (Event.read.inj he).2.2.2

/-- The log of the probe and of a search that returns 0. -/
theorem log_of_grows {s' : Boot σ} (h : Grows (afterProbe read s) s') :
    (∀ e ∈ s'.log, e.IsOther a) ∧
      ∀ b x l d, .read b x l d ∈ s'.log → b ≠ .sig → d = 0 := by
  obtain ⟨log, hlog, hreads⟩ := h
  rw [hlog, afterProbe_log]
  refine ⟨fun e he => ?_, fun b x l d he hb => ?_⟩
  · rcases List.mem_append.1 he with he | he
    · rw [List.mem_singleton.1 he]
      exact ⟨_, _, _, _, rfl, Buf.noConfusion⟩
    · exact (hreads e he).isOther
  · rcases List.mem_append.1 he with he | he
    · exact absurd (Event.read.inj (List.mem_singleton.1 he)).1 hb
    · exact (hreads _ he).code

/-- The log of the probe and of a search that fails. -/
theorem log_of_growsFailing {s' : Boot σ} {c : CInt}
    (h : GrowsFailing (afterProbe read s) c s') :
    ∃ log buf addr len, Buf.Table buf ∧ s'.log = log ++ [.read buf addr len c] ∧
      (∀ e ∈ log, e.IsOther a) ∧ ∀ b x l d, .read b x l d ∈ log → b ≠ .sig → d = 0 := by
  obtain ⟨-, log, e, hlog, hreads, buf, addr, len, hbuf, rfl⟩ := h
  have hgrows : Grows (afterProbe read s)
      ⟨(afterProbe read s).dev, (afterProbe read s).log ++ log⟩ := ⟨log, rfl, hreads⟩
  exact ⟨_, buf, addr, len, hbuf, hlog, log_of_grows hgrows⟩

/-- What the callback does with the request to copy. -/
def copyReply (read : GptRead σ) (a : BootArgs) (lbaBegin lbaEnd : U64) (s : σ) : Reply × σ :=
  read (.ext a.codeBuf) (0x200 * lbaBegin) (0x200 * (lbaEnd - lbaBegin + 1)) s

theorem copyAndBoot_failed {s' : Boot σ} {lbaBegin lbaEnd : U64}
    (h : (copyReply read a lbaBegin lbaEnd s'.dev).1.ret ≠ 0) :
    copyAndBoot read a lbaBegin lbaEnd s' =
      ((copyReply read a lbaBegin lbaEnd s'.dev).1.ret,
        ⟨(copyReply read a lbaBegin lbaEnd s'.dev).2, s'.log ++ [.read (.ext a.codeBuf)
          (0x200 * lbaBegin) (0x200 * (lbaEnd - lbaBegin + 1))
          (copyReply read a lbaBegin lbaEnd s'.dev).1.ret]⟩) :=
  if_pos h

theorem copyAndBoot_launched {s' : Boot σ} {lbaBegin lbaEnd : U64}
    (h : (copyReply read a lbaBegin lbaEnd s'.dev).1.ret = 0) :
    copyAndBoot read a lbaBegin lbaEnd s' =
      (a.stageRet, ⟨(copyReply read a lbaBegin lbaEnd s'.dev).2,
        s'.log ++ launch a (0x200 * lbaBegin) (copyLen lbaBegin lbaEnd)⟩) := by
  refine (if_neg (not_not.2 h)).trans ?_
  simp only [Boot.emit, List.append_assoc]
  rw [show (read (.ext a.codeBuf) _ _ s'.dev).1.ret = 0 from h]
  rfl

theorem copyAndBoot_end {out : FindOut} {s' : Boot σ} (h : Grows (afterProbe read s) s')
    (hend : searchEnd read a s = (0, ⟨s', out⟩)) (hsearched : Searched read a s s'.log out) :
    BootEnd read a s (copyAndBoot read a out.lbaBegin out.lbaEnd s') := by
  obtain ⟨hother, hcode⟩ := log_of_grows (a := a) h
  by_cases hc : (copyReply read a out.lbaBegin out.lbaEnd s'.dev).1.ret = 0
  · rw [copyAndBoot_launched hc]
    exact .launched hend hsearched rfl hother hcode
  · rw [copyAndBoot_failed hc]
    exact .failed hc Buf.noConfusion rfl hother hcode

theorem bootEnd (read : GptRead σ) (a : BootArgs) (s : σ) :
    BootEnd read a s (gptBootPartElseRaw read a ⟨s, []⟩) := by
  have hrun := bootRun read a s
  generalize gptBootPartElseRaw read a ⟨s, []⟩ = r at hrun ⊢
  cases hrun with
  | raw hsig => exact copyAndBoot_end ((logged_closed read).refl _) (searchEnd_raw hsig) (.raw hsig)
  | searchFails _ hrun hc =>
    rcases (logged_closed read).findRun hrun with ⟨h0, -⟩ | hgrows
    · exact absurd h0 hc
    · obtain ⟨log, buf, addr, len, hbuf, hlog, hother, hcode⟩ := log_of_growsFailing hgrows
      refine .failed hc ?_ hlog hother hcode
      rintro rfl
      exact hbuf
  | searched hsig hrun =>
    rcases (logged_closed read).findRun hrun with ⟨-, hgrows⟩ | ⟨hc, -⟩
    · exact copyAndBoot_end hgrows (searchEnd_search hsig hrun) (hrun.searched hsig)
    · exact absurd rfl hc

/-- Without a signature, what follows the probe does not depend on how the probe went. -/
theorem copyAndBoot_log (read' : GptRead σ) (hread : read' (.ext a.codeBuf) = read (.ext a.codeBuf))
    (dev : σ) (p p' : Event) (lbaBegin lbaEnd : U64) :
    (copyAndBoot read a lbaBegin lbaEnd ⟨dev, [p]⟩).1 =
        (copyAndBoot read' a lbaBegin lbaEnd ⟨dev, [p']⟩).1 ∧
      (copyAndBoot read a lbaBegin lbaEnd ⟨dev, [p]⟩).2.dev =
        (copyAndBoot read' a lbaBegin lbaEnd ⟨dev, [p']⟩).2.dev ∧
      (copyAndBoot read a lbaBegin lbaEnd ⟨dev, [p]⟩).2.log.tail =
        (copyAndBoot read' a lbaBegin lbaEnd ⟨dev, [p']⟩).2.log.tail := by
  have hreply : copyReply read' a lbaBegin lbaEnd dev = copyReply read a lbaBegin lbaEnd dev := by
    unfold copyReply
    rw [hread]
  by_cases hc : (copyReply read a lbaBegin lbaEnd dev).1.ret = 0
  · rw [copyAndBoot_launched hc, copyAndBoot_launched (hreply ▸ hc), hreply]
    exact ⟨rfl, rfl, rfl⟩
  · rw [copyAndBoot_failed hc, copyAndBoot_failed (hreply ▸ hc), hreply]
    exact ⟨rfl, rfl, rfl⟩

theorem gptBootPartElseRaw_raw (h : ¬Signed read s) : gptBootPartElseRaw read a ⟨s, []⟩ =
    copyAndBoot read a 0 (a.maxLbas - 1) (afterProbe read s) := by
  obtain ⟨-, hsig⟩ := gptCheckSignature_logged read s
  rw [gptBootPartElseRaw_eq, if_neg fun hs => h (hsig.1 hs)]

theorem Event.IsOther.isRead {e : Event} (h : e.IsOther a) : e.IsRead := by
  obtain ⟨buf, addr, len, c, rfl, -⟩ := h
  trivial

/-- **Main result.** If a read other than the signature probe fails, its code is returned and
nothing but reads has happened. If none fails, the reads of the search are followed by the copy of
the whole range that it leaves, the writes of the scratch registers and the start of the next
stage. A failing probe is as good as a missing signature. -/
theorem gptBootPartElseRaw_failures (read : GptRead σ) (a : BootArgs) (s : σ) :
    (∀ buf addr len c, .read buf addr len c ∈ (gptBootPartElseRaw read a ⟨s, []⟩).2.log →
      buf ≠ .sig → c ≠ 0 → (gptBootPartElseRaw read a ⟨s, []⟩).1 = c ∧
        ∀ e ∈ (gptBootPartElseRaw read a ⟨s, []⟩).2.log, e.IsRead) ∧
    ((∀ buf addr len c, .read buf addr len c ∈ (gptBootPartElseRaw read a ⟨s, []⟩).2.log →
      buf ≠ .sig → c = 0) →
        (searchEnd read a s).1 = 0 ∧
        Searched read a s (searchEnd read a s).2.dev.log (searchEnd read a s).2.out ∧
        (gptBootPartElseRaw read a ⟨s, []⟩).2.log = (searchEnd read a s).2.dev.log ++
          launch a (0x200 * (searchEnd read a s).2.out.lbaBegin)
            (copyLen (searchEnd read a s).2.out.lbaBegin (searchEnd read a s).2.out.lbaEnd) ∧
        (∀ e ∈ (searchEnd read a s).2.dev.log, e.IsOther a) ∧
        (gptBootPartElseRaw read a ⟨s, []⟩).1 = a.stageRet) ∧
    (∀ (read' : GptRead σ) (s' : σ), (∀ buf ≠ .sig, read' buf = read buf) →
      (read .sig 0x200 8 s).1.ret ≠ 0 → (read' .sig 0x200 8 s').1.ret = 0 →
      u64At (read' .sig 0x200 8 s').1.data 0 ≠ efiPart →
      (read .sig 0x200 8 s).2 = (read' .sig 0x200 8 s').2 →
      (gptBootPartElseRaw read a ⟨s, []⟩).1 = (gptBootPartElseRaw read' a ⟨s', []⟩).1 ∧
        (gptBootPartElseRaw read a ⟨s, []⟩).2.dev = (gptBootPartElseRaw read' a ⟨s', []⟩).2.dev ∧
        (gptBootPartElseRaw read a ⟨s, []⟩).2.log.tail =
          (gptBootPartElseRaw read' a ⟨s', []⟩).2.log.tail) := by
  refine ⟨?_, ?_, ?_⟩
  · have hend := bootEnd read a s
    generalize gptBootPartElseRaw read a ⟨s, []⟩ = r at hend ⊢
    intro buf addr len c hmem hbuf hc
    cases hend with
    | @failed d s' log b x l hd hb hlog hother hcode =>
      dsimp only at hmem ⊢
      rw [hlog] at hmem ⊢
      rcases List.mem_append.1 hmem with hmem | hmem
      · exact absurd (hcode _ _ _ _ hmem hbuf) hc
      · refine ⟨((Event.read.inj (List.mem_singleton.1 hmem)).2.2.2).symm, fun e he => ?_⟩
        rcases List.mem_append.1 he with he | he
        · exact (hother e he).isRead
        · rw [List.mem_singleton.1 he]
          trivial
    | launched _ _ hlog _ hcode =>
      dsimp only at hmem
      rw [hlog] at hmem
      rcases List.mem_append.1 hmem with hmem | hmem
      · exact absurd (hcode _ _ _ _ hmem hbuf) hc
      · simp [launch] at hmem
        exact absurd hmem.2.2.2 hc
  · have hend := bootEnd read a s
    generalize gptBootPartElseRaw read a ⟨s, []⟩ = r at hend ⊢
    intro hall
    cases hend with
    | @failed d s' log b x l hd hb hlog hother hcode =>
      have hlast : Event.read b x l d ∈ s'.log := by
        rw [hlog]
        exact List.mem_append_right _ (List.mem_singleton_self _)
      exact absurd (hall b x l d hlast hb) hd
    | launched hsearch hreads hlog hother _ =>
      rw [hsearch]
      exact ⟨rfl, hreads, hlog, hother, rfl⟩
  · intro read' s' hsame hfail hok hsig hstate
    have hraw : ¬Signed read s := fun h => hfail h.1
    have hraw' : ¬Signed read' s' := fun h => hsig h.2
    rw [gptBootPartElseRaw_raw hraw, gptBootPartElseRaw_raw hraw']
    have hafter : afterProbe read' s' = ⟨(read .sig 0x200 8 s).2, (afterProbe read' s').log⟩ := by
      rw [hstate]
      rfl
    rw [hafter]
    exact copyAndBoot_log read' (hsame _ Buf.noConfusion) _ _ _ _ _

end Failures

/-- A device of zeros on which reads into `bad` fail with code 5. -/
def zeros (bad : Buf → Bool) : GptRead Unit := fun buf _ _ s =>
  (⟨if bad buf then 5 else 0, fun _ => 0⟩, s)

def spmArgs : BootArgs where
  readPtr := 0x02001000
  priv := 0
  gp := 0x10000800
  codeBuf := 0x10000000
  maxLbas := 96
  tguid := some (0x4CE4FD950269B26A, 0x622C41011494CF98)
  pguid := none
  stageRet := 0

/-- A disk with a table of one entry, with no GUIDs, from block `lbaBegin` to block `lbaEnd`. -/
def tableDisk (lbaBegin lbaEnd : ℕ) : Disk := fun a =>
  let field (start len x : ℕ) : Option Byte :=
    if start ≤ a.toNat ∧ a.toNat < start + len then some (byteOf x (a.toNat - start)) else none
  (field 0x200 8 0x5452415020494645 <|> field 0x248 8 2 <|> field 0x250 4 1 <|>
    field 0x254 4 128 <|> field 0x420 8 lbaBegin <|> field 0x428 8 lbaEnd).getD 0

theorem gptBootPartElseRaw_failures_spm :
    (gptBootPartElseRaw (zeros (· = .ext 0x10000000)) spmArgs ⟨(), []⟩).1 = 5 ∧
    (Searched (serve (tableDisk 100 150)) spmArgs () [.read .sig 0x200 8 0,
        .read .hf 0x248 16 0, .read .dim 0x420 16 0, .read .guid 0x400 16 0] ⟨-1, 100, 150⟩ ∧
      (gptBootPartElseRaw (serve (tableDisk 100 150)) spmArgs ⟨(), []⟩).2.log =
        [.read .sig 0x200 8 0, .read .hf 0x248 16 0, .read .dim 0x420 16 0,
          .read .guid 0x400 16 0] ++ launch spmArgs 0xC800 0x6600) ∧
    (gptBootPartElseRaw (zeros (· = .sig)) spmArgs ⟨(), []⟩).2.log.tail =
      (gptBootPartElseRaw (zeros fun _ => false) spmArgs ⟨(), []⟩).2.log.tail := by
  obtain ⟨hfail, -, -⟩ := gptBootPartElseRaw_failures (zeros (· = .ext 0x10000000)) spmArgs ()
  obtain ⟨-, hok, -⟩ := gptBootPartElseRaw_failures (serve (tableDisk 100 150)) spmArgs ()
  obtain ⟨-, -, hprobe⟩ := gptBootPartElseRaw_failures (zeros (· = .sig)) spmArgs ()
  refine ⟨(hfail (.ext 0x10000000) 0 0xC000 5 ?_ Buf.noConfusion (by decide)).1, ?_, ?_⟩
  · exact List.mem_cons_of_mem _ (List.mem_singleton_self _)
  · have hcodes : ∀ e ∈ (gptBootPartElseRaw (serve (tableDisk 100 150)) spmArgs ⟨(), []⟩).2.log,
        e.code = 0 := by decide +kernel
    obtain ⟨-, hreads, hlog, -⟩ := hok fun buf addr len c hmem _ => hcodes _ hmem
    have hout : (searchEnd (serve (tableDisk 100 150)) spmArgs ()).2.out = ⟨-1, 100, 150⟩ := by
      decide +kernel
    have hsearch : (searchEnd (serve (tableDisk 100 150)) spmArgs ()).2.dev.log =
        [.read .sig 0x200 8 0, .read .hf 0x248 16 0, .read .dim 0x420 16 0,
          .read .guid 0x400 16 0] := by decide +kernel
    rw [hsearch, hout] at hreads hlog
    exact ⟨hreads, hlog⟩
  · refine (hprobe (zeros fun _ => false) () ?_ (by decide) rfl (by decide) rfl).2.2
    intro buf hbuf
    funext addr len u
    simp [zeros, hbuf]

/-! ## The size of the copy -/

section Copy

variable (read : GptRead σ) (a : BootArgs) (s : σ)

/-- The copy into `code_buf` asks for at most `max_lbas` blocks. -/
def CopyBounded : Prop :=
  ∀ addr len c, .read (.ext a.codeBuf) addr len c ∈ (gptBootPartElseRaw read a ⟨s, []⟩).2.log →
    len.toNat ≤ 512 * a.maxLbas.toNat

/-- The range of `d` ends before it begins, by so many blocks that its length, a number of bytes
modulo `2 ^ 64`, exceeds `max_lbas` blocks. -/
structure Inverted (maxLbas : U64) (d : PartFields) : Prop where
  lt : d.lbaEnd.toNat < d.lbaBegin.toNat
  noWrap : d.lbaBegin.toNat + maxLbas.toNat - 1 < 2 ^ 64
  pos : 0 < (d.lbaBegin.toNat - d.lbaEnd.toNat - 1) % 2 ^ 55
  exceeds : (d.lbaBegin.toNat - d.lbaEnd.toNat - 1) % 2 ^ 55 + maxLbas.toNat < 2 ^ 55

/-- There is a table, no read of it fails, none of its entries is chosen, and the size fields of
the first one are `d`. -/
inductive FallsBack (d : PartFields) : Prop
  | intro {hf : HdrFields} {ds : List PartFields} {s₁ s₂ : Boot σ} : Signed read s →
      Header (logged read) (afterProbe read s) hf s₁ → ds.length = hf.count.toNat →
      Passed (logged read) a.maxLbas a.tguid a.pguid hf ds s₁ s₂ → ds.head? = some d → FallsBack d

theorem copyLen_toNat (lbaBegin lbaEnd : U64) : (copyLen lbaBegin lbaEnd).toNat =
    512 * (lbaEnd.toNat + 1 + (2 ^ 64 - lbaBegin.toNat)) % 2 ^ 64 := by
  have hb := lbaBegin.isLt
  have he := lbaEnd.isLt
  unfold copyLen
  rw [BitVec.toNat_mul, BitVec.toNat_add, BitVec.toNat_sub]
  rw [show (0x200 : U64).toNat = 512 from rfl, show (1 : U64).toNat = 1 from rfl]
  omega

theorem minU64_toNat (x y : U64) : (minU64 x y).toNat = min x.toNat y.toNat := by
  unfold minU64
  split_ifs with h
  · rw [BitVec.le_def] at h
    omega
  · rw [BitVec.le_def] at h
    omega

/-- The same, for a chunk of at most `m` blocks from block `b`, with last block at most `e`. -/
theorem chunk_le_iff {b e m : ℕ} (hb : b < 2 ^ 64) (he : e < 2 ^ 64) (hm : 1 ≤ m)
    (hm' : m < 2 ^ 55) :
    512 * (min e ((b + (m - 1)) % 2 ^ 64) + 1 + (2 ^ 64 - b)) % 2 ^ 64 ≤ 512 * m ↔
      ¬(e < b ∧ b + m - 1 < 2 ^ 64 ∧ 0 < (b - e - 1) % 2 ^ 55 ∧
        (b - e - 1) % 2 ^ 55 + m < 2 ^ 55) := by
  by_cases hw : b + (m - 1) < 2 ^ 64
  · rw [Nat.mod_eq_of_lt hw]
    rcases Nat.le_total e (b + (m - 1)) with hle | hle
    · rw [Nat.min_eq_left hle]
      by_cases hlt : e < b
      · obtain ⟨d, rfl⟩ : ∃ d, b = e + 1 + d := ⟨b - e - 1, by omega⟩
        have hd : e + 1 + d - e - 1 = d := by omega
        have hlen : e + 1 + (2 ^ 64 - (e + 1 + d)) = 2 ^ 64 - d := by omega
        rw [hd, hlen]
        omega
      · omega
    · rw [Nat.min_eq_right hle]
      omega
  · -- the last block of the chunk wraps around, and both bounds on it are far below `b`
    have hmod : (b + (m - 1)) % 2 ^ 64 = b + (m - 1) - 2 ^ 64 := by omega
    rw [hmod]
    rcases Nat.le_total e (b + (m - 1) - 2 ^ 64) with hle | hle
    · rw [Nat.min_eq_left hle]
      omega
    · rw [Nat.min_eq_right hle]
      omega

variable {read a s}

theorem firstChunk_bounded_iff {maxLbas : U64} (h : 1 ≤ maxLbas.toNat)
    (h55 : maxLbas.toNat < 2 ^ 55) (d : PartFields) :
    (copyLen (firstChunk maxLbas d).lbaBegin (firstChunk maxLbas d).lbaEnd).toNat ≤
      512 * maxLbas.toNat ↔ ¬Inverted maxLbas d := by
  have hlast : (d.lbaBegin + maxLbas - 1).toNat =
      (d.lbaBegin.toNat + (maxLbas.toNat - 1)) % 2 ^ 64 := by
    rw [BitVec.toNat_sub, BitVec.toNat_add, show (1 : U64).toNat = 1 from rfl]
    omega
  rw [copyLen_toNat, firstChunk, minU64_toNat, hlast,
    chunk_le_iff d.lbaBegin.isLt d.lbaEnd.isLt h h55, not_iff_not]
  exact ⟨fun ⟨h₁, h₂, h₃, h₄⟩ => ⟨h₁, h₂, h₃, h₄⟩, fun ⟨h₁, h₂, h₃, h₄⟩ => ⟨h₁, h₂, h₃, h₄⟩⟩

/-- A range that fits has at most `max_lbas` blocks. -/
theorem PartFields.Fits.copyLen_le {maxLbas : U64} (h55 : maxLbas.toNat < 2 ^ 55)
    {d : PartFields} (h : d.Fits maxLbas) :
    (copyLen d.lbaBegin d.lbaEnd).toNat ≤ 512 * maxLbas.toNat := by
  have hb := d.lbaBegin.isLt
  rw [PartFields.Fits, BitVec.lt_def, BitVec.toNat_sub] at h
  rw [copyLen_toNat]
  omega

theorem raw_copyLen_le {maxLbas : U64} (h : 1 ≤ maxLbas.toNat) (h55 : maxLbas.toNat < 2 ^ 55) :
    (copyLen 0 (maxLbas - 1)).toNat ≤ 512 * maxLbas.toNat := by
  rw [copyLen_toNat, BitVec.toNat_sub, show (1 : U64).toNat = 1 from rfl,
    show (0 : U64).toNat = 0 from rfl]
  omega

/-- The copy is the only read into `code_buf`. -/
theorem copyAndBoot_bounded_iff {s' : Boot σ} {lbaBegin lbaEnd : U64} {n : ℕ}
    (h : ∀ e ∈ s'.log, e.IsOther a) :
    (∀ addr len c, .read (.ext a.codeBuf) addr len c ∈
      (copyAndBoot read a lbaBegin lbaEnd s').2.log → len.toNat ≤ n) ↔
      (copyLen lbaBegin lbaEnd).toNat ≤ n := by
  have hother {addr len : U64} {c : CInt} :
      Event.read (.ext a.codeBuf) addr len c ∉ s'.log := by
    intro hmem
    obtain ⟨_, _, _, _, he, hne⟩ := h _ hmem
    exact hne (Event.read.inj he).1.symm
  by_cases hc : (copyReply read a lbaBegin lbaEnd s'.dev).1.ret = 0
  · rw [copyAndBoot_launched hc]
    constructor
    · intro hall
      exact hall _ _ 0 (List.mem_append_right _ List.mem_cons_self)
    · intro hle addr len c hmem
      rcases List.mem_append.1 hmem with hmem | hmem
      · exact absurd hmem hother
      · simp only [launch, List.mem_cons, List.not_mem_nil, Event.read.injEq, reduceCtorEq,
          or_false] at hmem
        rw [hmem.2.2.1]
        exact hle
  · rw [copyAndBoot_failed hc]
    constructor
    · intro hall
      exact hall _ _ _ (List.mem_append_right _ (List.mem_singleton_self _))
    · intro hle addr len c hmem
      rcases List.mem_append.1 hmem with hmem | hmem
      · exact absurd hmem hother
      · rw [(Event.read.inj (List.mem_singleton.1 hmem)).2.2.1]
        exact hle

/-- Falling back, the boot copies the first chunk of the first entry. -/
theorem FallsBack.run {d : PartFields} (h : FallsBack read a s d) :
    ∃ s', Grows (afterProbe read s) s' ∧ gptBootPartElseRaw read a ⟨s, []⟩ =
      copyAndBoot read a (firstChunk a.maxLbas d).lbaBegin (firstChunk a.maxLbas d).lbaEnd s' := by
  obtain ⟨hsig, hhdr, hlen, hp, hhead⟩ := h
  obtain ⟨-, hfound⟩ := gptCheckSignature_logged read s
  have hrun : FindRun (logged read) a.maxLbas a.tguid a.pguid (afterProbe read s) (rawOut a) 0
      _ _ := .notFound hhdr hlen hp
  rcases (logged_closed read).findRun hrun with ⟨-, hgrows⟩ | ⟨hc, -⟩
  · refine ⟨_, hgrows, ?_⟩
    obtain ⟨hbegin, hend⟩ := recordedAll_head a.maxLbas (rawOut a) hhead
    rw [gptBootPartElseRaw_eq, if_pos (hfound.2 hsig), hrun.run]
    dsimp only
    rw [if_neg (not_not.2 rfl), hbegin, hend]
    rfl
  · exact absurd rfl hc

/-- **Main result.** The copy is bounded by `max_lbas` blocks, unless the search falls back to a
first entry whose range is inverted. -/
theorem gptBootPartElseRaw_copyBounded_iff (read : GptRead σ) (a : BootArgs) (s : σ)
    (h : 1 ≤ a.maxLbas.toNat) (h55 : a.maxLbas.toNat < 2 ^ 55) :
    CopyBounded read a s ↔ ¬∃ d, FallsBack read a s d ∧ Inverted a.maxLbas d := by
  constructor
  · intro hbound hex
    obtain ⟨d, hback, hinv⟩ := hex
    obtain ⟨s', hgrows, hrun⟩ := hback.run
    rw [CopyBounded, hrun, copyAndBoot_bounded_iff (log_of_grows hgrows).1,
      firstChunk_bounded_iff h h55] at hbound
    exact hbound hinv
  · intro hnone
    have hrun := bootRun read a s
    unfold CopyBounded
    generalize gptBootPartElseRaw read a ⟨s, []⟩ = r at hrun ⊢
    cases hrun with
    | raw _ =>
      rw [copyAndBoot_bounded_iff (log_of_grows ((logged_closed read).refl _)).1]
      exact raw_copyLen_le h h55
    | searchFails _ hrun hc =>
      rcases (logged_closed read).findRun hrun with ⟨h0, -⟩ | hgrows
      · exact absurd h0 hc
      · obtain ⟨log, buf, x, l, hbuf, hlog, hother, -⟩ := log_of_growsFailing (a := a) hgrows
        intro addr len c hmem
        dsimp only at hmem
        rw [hlog] at hmem
        rcases List.mem_append.1 hmem with hmem | hmem
        · obtain ⟨_, _, _, _, he, hne⟩ := hother _ hmem
          exact absurd (Event.read.inj he).1.symm hne
        · have hext := (Event.read.inj (List.mem_singleton.1 hmem)).1
          rw [← hext] at hbuf
          exact hbuf.elim
    | searched hsig hrun =>
      have hgrows : Grows (afterProbe read s) _ :=
        ((logged_closed read).findRun hrun).elim (fun hr => hr.2) (fun hr => absurd rfl hr.1)
      rw [copyAndBoot_bounded_iff (log_of_grows hgrows).1]
      cases hrun with
      | headerFails hhdr => exact absurd rfl hhdr.1
      | found _ _ _ hc =>
        cases hc with
        | tguid _ hfit _ => exact hfit.copyLen_le h55
        | pguid _ hfit _ _ => exact hfit.copyLen_le h55
      | @notFound hf ds _ _ hhdr hlen hp =>
        rcases hhead : ds.head? with _ | d
        · rw [recordedAll, hhead]
          exact raw_copyLen_le h h55
        · obtain ⟨hbegin, hend⟩ := recordedAll_head a.maxLbas (rawOut a) hhead
          have hinv : ¬Inverted a.maxLbas d :=
            fun hinv => hnone ⟨d, ⟨hsig, hhdr, hlen, hp, hhead⟩, hinv⟩
          have := (firstChunk_bounded_iff h h55 d).2 hinv
          dsimp only
          rw [hbegin, hend]
          exact this
      | entryFails _ _ _ hfail => exact absurd rfl hfail.nonzero

theorem gptBootPartElseRaw_copyBounded_iff_zeros :
    CopyBounded (zeros fun _ => false) spmArgs () := by
  refine (gptBootPartElseRaw_copyBounded_iff _ spmArgs () (by decide) (by decide)).2 ?_
  intro hex
  obtain ⟨d, ⟨hsig, -⟩, -⟩ := hex
  exact absurd hsig.2 (by decide)

/-- The range of the entry starts at block 100 and ends at block 5. -/
def invertedDisk : Disk := tableDisk 100 5

theorem gptBootPartElseRaw_overflows :
    1 ≤ spmArgs.maxLbas.toNat ∧ spmArgs.maxLbas.toNat < 2 ^ 55 ∧
      .read (.ext spmArgs.codeBuf) 0xC800 0xFFFFFFFFFFFF4400 0 ∈
        (gptBootPartElseRaw (serve invertedDisk) spmArgs ⟨(), []⟩).2.log ∧
      ¬CopyBounded (serve invertedDisk) spmArgs () := by
  have hmem : .read (.ext spmArgs.codeBuf) 0xC800 0xFFFFFFFFFFFF4400 0 ∈
      (gptBootPartElseRaw (serve invertedDisk) spmArgs ⟨(), []⟩).2.log := by
    have hlog : (gptBootPartElseRaw (serve invertedDisk) spmArgs ⟨(), []⟩).2.log[3]? =
        some (.read (.ext spmArgs.codeBuf) 0xC800 0xFFFFFFFFFFFF4400 0) := by decide +kernel
    exact List.mem_of_getElem? hlog
  refine ⟨by decide, by decide, hmem, fun hbound => ?_⟩
  exact absurd (hbound _ _ _ hmem) (by decide)

end Copy

end Cheshire.Gpt
