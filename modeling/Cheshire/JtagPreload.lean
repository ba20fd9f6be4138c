import Cheshire.Sections
import Mathlib.Data.BitVec

/-!
# Preloading an ELF file over JTAG: `jtag_elf_preload`

The host writes each section word by word through the system bus access of the debug module. The
loop over a section runs up to its length and not up to the last byte: `i <= sec_len`.

**Theorem (`preload_iff`).** The sections are in memory after the preload, and no byte outside
their words has changed, exactly if the word of zeros behind each section whose length is a
multiple of 8 does no harm (`TailsZero`).
-/

namespace Cheshire.JtagPreload

open Lib SlinkPreload SlinkPreload.Section

/-! ## The debug module -/

/-- The fields of `sbcs` that the host sets. -/
structure Sbcs where
  sbautoincrement : Bool
  sbreadondata : Bool
  sbaccess : ℕ

/-- A write to a register of the debug module. -/
inductive DmiWrite
  | sbcs (data : Sbcs)
  | sbAddress1 (data : BitVec 32)
  | sbAddress0 (data : BitVec 32)
  | sbData1 (data : BitVec 32)
  | sbData0 (data : BitVec 32)

/-- The registers of the system bus access, and the memory behind the bus. -/
structure Dm where
  sbcs : Sbcs
  sbAddress : BitVec 64
  sbData1 : BitVec 32
  mem : Mem

namespace Dm

variable (dm : Dm)

/-- A write of `SBData0` starts a write on the bus. -/
def step : DmiWrite → Dm
  | .sbcs data => { dm with sbcs := data }
  | .sbAddress1 data => { dm with sbAddress := data ++ dm.sbAddress.setWidth 32 }
  | .sbAddress0 data => { dm with sbAddress := dm.sbAddress.extractLsb' 32 32 ++ data }
  | .sbData1 data => { dm with sbData1 := data }
  | .sbData0 data =>
    { dm with
      mem := dm.mem.write dm.sbAddress (2 ^ dm.sbcs.sbaccess) (byteOf (dm.sbData1 ++ data).toNat)
      sbAddress := if dm.sbcs.sbautoincrement then
          dm.sbAddress + BitVec.ofNat 64 (2 ^ dm.sbcs.sbaccess)
        else dm.sbAddress }

def run (writes : List DmiWrite) : Dm := writes.foldl step dm

theorem run_cons (w : DmiWrite) (writes : List DmiWrite) :
    dm.run (w :: writes) = (dm.step w).run writes := rfl

theorem run_append (ws ws' : List DmiWrite) : dm.run (ws ++ ws') = (dm.run ws).run ws' :=
  List.foldl_append

end Dm

/-! ## `jtag_elf_preload` -/

def jtagInitSbcs : Sbcs := ⟨true, true, 3⟩

section Host

variable (s : Section)

/-- `{bf[i+3], bf[i+2], bf[i+1], bf[i]}`. -/
def word (i : ℕ) : BitVec 32 :=
  s.byteAt (i + 3) ++ s.byteAt (i + 2) ++ s.byteAt (i + 1) ++ s.byteAt i

/-- The loop over a section, for fewer than `fuel` turns. The status that `jtag_write` polls at a
checkpoint shows no error. -/
def wordLoop : ℕ → ℕ → Option (List DmiWrite)
  | 0, _ => none
  | fuel + 1, i =>
    if i ≤ s.secLen then do
      let rest ← wordLoop fuel (i + 8)
      return .sbData1 (word s (i + 4)) :: .sbData0 (word s i) :: rest
    else return []

def preloadSection (fuel : ℕ) : Option (List DmiWrite) := do
  let data ← wordLoop s fuel 0
  return .sbcs jtagInitSbcs :: .sbAddress1 (s.base.extractLsb' 32 32) ::
    .sbAddress0 (s.base.setWidth 32) :: data

end Host

/-- The writes of the whole file, section by section. -/
def jtagElfPreload (fuel : ℕ) : List Section → Option (List DmiWrite)
  | [] => some []
  | s :: secs => do
    let writes ← preloadSection s fuel
    let rest ← jtagElfPreload fuel secs
    return writes ++ rest

/-! ## One word -/

section Words

variable (s : Section)

theorem byteOf_word (i : ℕ) {e : ℕ} (he : e < 4) :
    byteOf (word s i).toNat e = s.byteAt (i + e) := by
  unfold word
  rw [byteOf_append _ _ (show 8 = 8 * 1 from rfl), byteOf_append _ _ (show 8 = 8 * 1 from rfl),
    byteOf_append _ _ (show 8 = 8 * 1 from rfl)]
  obtain rfl | rfl | rfl | rfl : e = 0 ∨ e = 1 ∨ e = 2 ∨ e = 3 := by omega
  all_goals exact byteOf_byte _

theorem byteOf_double (i : ℕ) {e : ℕ} (he : e < 8) :
    byteOf (word s (i + 4) ++ word s i).toNat e = s.byteAt (i + e) := by
  rw [byteOf_append _ _ (show 32 = 8 * 4 from rfl)]
  by_cases hlow : e < 4
  · rw [if_pos hlow, byteOf_word s i hlow]
  · rw [if_neg hlow, byteOf_word s (i + 4) (by omega)]
    congr 1
    omega

end Words

/-! ## The loop over a section -/

section Loop

variable (s : Section)

/-- The bytes that the loop over a section writes. -/
def span : ℕ := 8 * (s.secLen / 8 + 1)

/-- What `n` turns of the loop write, from `i` on. -/
def turns : ℕ → ℕ → List DmiWrite
  | 0, _ => []
  | n + 1, i => .sbData1 (word s (i + 4)) :: .sbData0 (word s i) :: turns n (i + 8)

theorem wordLoop_eq {n i fuel : ℕ} (hi : i + 8 * n = span s) (hfuel : n < fuel) :
    wordLoop s fuel i = some (turns s n i) := by
  unfold span at hi
  obtain ⟨fuel, rfl⟩ := Nat.exists_eq_add_of_le' (show 1 ≤ fuel by omega)
  induction n generalizing i fuel with
  | zero => rw [wordLoop, if_neg (by omega)]; rfl
  | succ n ih =>
    obtain ⟨fuel, rfl⟩ := Nat.exists_eq_add_of_le' (show 1 ≤ fuel by omega)
    rw [wordLoop, if_pos (by omega), ih (by omega) fuel (by omega)]
    rfl

/-- The words go to one address after the other. -/
theorem turns_run {n i : ℕ} (hn : 8 * n ≤ 2 ^ 64) {dm : Dm} (hsbcs : dm.sbcs = jtagInitSbcs) :
    (dm.run (turns s n i)).mem =
      dm.mem.write dm.sbAddress (8 * n) fun j => s.byteAt (i + j) := by
  induction n generalizing i dm with
  | zero =>
    rw [Nat.mul_zero, Mem.write_zero]
    rfl
  | succ n ih =>
    obtain ⟨sbcs, a, data1, m⟩ := dm
    obtain rfl : sbcs = jtagInitSbcs := hsbcs
    have hfirst : m.write a 8 (byteOf (word s (i + 4) ++ word s i).toNat) =
        m.write a 8 fun j => s.byteAt (i + j) :=
      Mem.write_congr fun e he => byteOf_double s i he
    have hrest := @ih (i + 8) (by omega) ⟨jtagInitSbcs, a + BitVec.ofNat 64 8, word s (i + 4),
      m.write a 8 (byteOf (word s (i + 4) ++ word s i).toNat)⟩ rfl
    have hlen : 8 + 8 * n ≤ 2 ^ 64 := by omega
    have happend := Mem.write_append (m := m) (a := a) (f := fun j => s.byteAt (i + j)) hlen
    refine hrest.trans ?_
    simp only [hfirst, Nat.add_assoc i]
    rw [happend, Nat.mul_succ, Nat.add_comm 8]

/-- What `jtag_elf_preload` writes for a section. -/
def sectionWrites : List DmiWrite :=
  .sbcs jtagInitSbcs :: .sbAddress1 (s.base.extractLsb' 32 32) ::
    .sbAddress0 (s.base.setWidth 32) :: turns s (s.secLen / 8 + 1) 0

theorem preloadSection_eq {fuel : ℕ} (hfuel : s.secLen + 1 < fuel) :
    preloadSection s fuel = some (sectionWrites s) := by
  rw [preloadSection, wordLoop_eq s (Nat.zero_add _) (by omega)]
  rfl

/-- An address in two halves. -/
theorem address_halves (a b : BitVec 64) :
    ((a.extractLsb' 32 32 ++ b.setWidth 32 : BitVec 64).extractLsb' 32 32 ++ a.setWidth 32 :
      BitVec 64) = a := by
  refine BitVec.eq_of_getLsbD_eq fun j hj => ?_
  rw [BitVec.getLsbD_append]
  by_cases hlow : j < 32
  · rw [if_pos hlow, BitVec.getLsbD_setWidth, decide_eq_true hlow, Bool.true_and]
  · have hsum : 32 + (j - 32) = j := by omega
    rw [if_neg hlow, BitVec.getLsbD_extractLsb', decide_eq_true (by omega), Bool.true_and, hsum,
      BitVec.getLsbD_append, if_neg hlow, BitVec.getLsbD_extractLsb', decide_eq_true (by omega),
      Bool.true_and, hsum]

/-- A section is written from its start on, and zeros up to the end of the last word. -/
theorem section_run (hlen : s.secLen < 2 ^ 63) (dm : Dm) :
    (dm.run (sectionWrites s)).mem = dm.mem.write s.base (span s) s.byteAt := by
  have hstart : ((dm.step (.sbcs jtagInitSbcs)).step (.sbAddress1 (s.base.extractLsb' 32 32))).step
      (.sbAddress0 (s.base.setWidth 32)) = ⟨jtagInitSbcs, s.base, dm.sbData1, dm.mem⟩ := by
    simp only [Dm.step, address_halves]
  rw [sectionWrites, Dm.run_cons, Dm.run_cons, Dm.run_cons, hstart, turns_run s (by omega) rfl]
  simp only [Nat.zero_add]
  rfl

end Loop

/-! ## Words of a section -/

section Words

variable (s : Section)

/-- The word of the address `x` contains a byte of the section. -/
def InWords (x : BitVec 64) : Prop := ∃ y, s.Has y ∧ y.toNat / 8 = x.toNat / 8

/-- The word of the address `x` is right behind a section of whole words. -/
def Tail (x : BitVec 64) : Prop := 8 ∣ s.secLen ∧ s.offset x / 8 = s.secLen / 8

variable {s} {t : Section} {x y : BitVec 64}

theorem base_aligned (h : 8 ∣ s.secAddr) : s.base.toNat % 8 = 0 := by
  rw [Section.base, BitVec.toNat_ofNat]
  omega

/-- The first address of a word. -/
theorem exists_start (x : BitVec 64) : ∃ y : BitVec 64, y.toNat = 8 * (x.toNat / 8) := by
  refine ⟨BitVec.ofNat 64 (8 * (x.toNat / 8)), ?_⟩
  have hx := x.isLt
  rw [BitVec.toNat_ofNat]
  omega

theorem offset_start (h : 8 ∣ s.secAddr) (hy : y.toNat = 8 * (x.toNat / 8)) :
    s.offset y = 8 * (s.offset x / 8) := by
  have hbase := base_aligned h
  have hlt := s.base.isLt
  have hx := x.isLt
  rw [offset_eq, offset_eq, hy]
  omega

theorem offset_word (h : 8 ∣ s.secAddr) (hy : y.toNat / 8 = x.toNat / 8) :
    s.offset y / 8 = s.offset x / 8 := by
  have hbase := base_aligned h
  have hlt := s.base.isLt
  have hx := x.isLt
  have hy' := y.isLt
  rw [offset_eq, offset_eq]
  omega

theorem inWords_iff (h : 8 ∣ s.secAddr) : InWords s x ↔ 8 * (s.offset x / 8) < s.secLen := by
  constructor
  · rintro ⟨y, hy, hword⟩
    have hoff := offset_word h hword
    unfold Section.Has at hy
    omega
  · intro hlt
    obtain ⟨y, hy⟩ := exists_start x
    refine ⟨y, ?_, by omega⟩
    unfold Section.Has
    rw [offset_start h hy]
    exact hlt

theorem inWords_of_has (h : s.Has x) : InWords s x := ⟨x, h, rfl⟩

/-- Two sections that are apart have no word in common. -/
theorem not_inWords (hs : 8 ∣ s.secAddr) (ht : 8 ∣ t.secAddr) (hapart : s.Apart t)
    (hx : InWords s x) : ¬InWords t x := by
  intro hx'
  rw [inWords_iff hs] at hx
  rw [inWords_iff ht] at hx'
  obtain ⟨y, hy⟩ := exists_start x
  refine hapart y ?_ ?_
  · unfold Section.Has
    rwa [offset_start hs hy]
  · unfold Section.Has
    rwa [offset_start ht hy]

theorem span_bounds (s : Section) : s.secLen < span s ∧ span s ≤ s.secLen + 8 := by
  unfold span
  omega

/-- Behind the words of a section, the loop writes to its tail only. -/
theorem lt_span_iff (h : 8 ∣ s.secAddr) (hx : ¬InWords s x) : s.offset x < span s ↔ Tail s x := by
  rw [inWords_iff h] at hx
  unfold span Tail
  omega

end Words

/-! ## The whole file -/

section File

/-- The memory with what `jtag_elf_preload` writes for the sections. -/
def written (secs : List Section) (m : Mem) : Mem :=
  secs.foldl (fun m s => m.write s.base (span s) s.byteAt) m

theorem jtagElfPreload_eq (secs : List Section) {fuel : ℕ}
    (hfuel : 2 + (secs.map secLen).sum ≤ fuel) :
    jtagElfPreload fuel secs = some (secs.flatMap sectionWrites) := by
  induction secs with
  | nil => rfl
  | cons s secs ih =>
    rw [List.map_cons, List.sum_cons] at hfuel
    rw [jtagElfPreload, preloadSection_eq s (by omega), ih (by omega)]
    rfl

theorem file_run {secs : List Section} (hlen : ∀ s ∈ secs, s.secLen < 2 ^ 63) (dm : Dm) :
    (dm.run (secs.flatMap sectionWrites)).mem = written secs dm.mem := by
  induction secs generalizing dm with
  | nil => rfl
  | cons s secs ih =>
    have hrest := ih (fun t ht => hlen t (List.mem_cons_of_mem s ht)) (dm.run (sectionWrites s))
    rw [section_run s (hlen s List.mem_cons_self)] at hrest
    rw [List.flatMap_cons, Dm.run_append]
    exact hrest

theorem written_append (pre post : List Section) (m : Mem) :
    written (pre ++ post) m = written post (written pre m) := List.foldl_append

variable {secs pre post : List Section} {s : Section} {x : BitVec 64} {m : Mem}

/-- A byte in the words of a section that is loaded last. -/
theorem written_self (h : s.offset x < span s) (m : Mem) :
    written [s] m x = s.byteAt (s.offset x) := if_pos h

/-- A section leaves a byte outside its words alone, or clears it. -/
theorem written_outside (hs : 8 ∣ s.secAddr) (hx : ¬InWords s x) (m : Mem) :
    (Tail s x → written [s] m x = 0) ∧ (¬Tail s x → written [s] m x = m x) := by
  rw [← lt_span_iff hs hx]
  rw [inWords_iff hs] at hx
  exact ⟨fun h => (written_self h m).trans (byteAt_of_le (by omega)), fun h => if_neg h⟩

/-- A byte outside the words of all sections keeps its value if no tail clears it. -/
theorem written_keep (haligned : ∀ s ∈ secs, 8 ∣ s.secAddr) (hx : ∀ s ∈ secs, ¬InWords s x)
    (htail : ∀ s ∈ secs, Tail s x → m x = 0) : written secs m x = m x := by
  induction secs generalizing m with
  | nil => rfl
  | cons s secs ih =>
    obtain ⟨hclear, hkeep⟩ := written_outside (haligned s List.mem_cons_self)
      (hx s List.mem_cons_self) m
    have hfirst : written [s] m x = m x := by
      by_cases htx : Tail s x
      · rw [hclear htx, htail s List.mem_cons_self htx]
      · exact hkeep htx
    have hrest := @ih (written [s] m) (fun t ht => haligned t (List.mem_cons_of_mem s ht))
      (fun t ht => hx t (List.mem_cons_of_mem s ht))
      fun t ht htx => hfirst.trans (htail t (List.mem_cons_of_mem s ht) htx)
    exact hrest.trans hfirst

/-- A byte in the tail of a section is zero if no later section has a byte in its word. -/
theorem written_tail (haligned : ∀ t ∈ pre ++ s :: post, 8 ∣ t.secAddr) (hs : ¬InWords s x)
    (hpost : ∀ t ∈ post, ¬InWords t x) (htail : Tail s x) (m : Mem) :
    written (pre ++ s :: post) m x = 0 := by
  have hclear := (written_outside (haligned s (by simp)) hs (written pre m)).1 htail
  rw [written_append]
  show written post (written [s] (written pre m)) x = 0
  rw [written_keep (fun t ht => haligned t (by simp [ht])) hpost fun _ _ _ => hclear, hclear]

end File

/-! ## Main result -/

/-- Every section is in memory, and the words without a byte of a section are as before. -/
structure Preloaded (secs : List Section) (m m' : Mem) : Prop where
  bytes : ∀ s ∈ secs, ∀ x, s.Has x → m' x = s.byteAt (s.offset x)
  frame : ∀ x, (∀ s ∈ secs, ¬InWords s x) → m' x = m x

/-- The tails clear nothing: bytes there of sections loaded before are zero, and so is the memory
where no section has a byte. -/
structure TailsZero (secs : List Section) (m : Mem) : Prop where
  earlier : ∀ pre s post, secs = pre ++ s :: post → ∀ t ∈ pre, ∀ x, Tail s x → t.Has x →
    t.byteAt (t.offset x) = 0
  spare : ∀ s ∈ secs, ∀ x, Tail s x → (∀ t ∈ secs, ¬InWords t x) → m x = 0

theorem TailsZero.of_preloaded {secs : List Section} {m : Mem}
    (haligned : ∀ s ∈ secs, 8 ∣ s.secAddr) (hapart : secs.Pairwise Apart)
    (h : Preloaded secs m (written secs m)) : TailsZero secs m where
  earlier := by
    rintro pre s post rfl t ht x htail hx
    have hword := inWords_of_has hx
    have hat : 8 ∣ t.secAddr := haligned t (List.mem_append_left _ ht)
    have hothers : ∀ u ∈ s :: post, ¬InWords u x := fun u hu =>
      not_inWords hat (haligned u (List.mem_append_right pre hu))
        ((List.pairwise_append.1 hapart).2.2 t ht u hu) hword
    rw [← h.bytes t (List.mem_append_left _ ht) x hx]
    exact written_tail haligned (hothers s List.mem_cons_self)
      (fun u hu => hothers u (List.mem_cons_of_mem s hu)) htail m
  spare := by
    intro s hs x htail hx
    rw [← h.frame x hx]
    obtain ⟨pre, post, rfl⟩ := List.append_of_mem hs
    exact written_tail haligned (hx s hs) (fun u hu => hx u (by simp [hu])) htail m

theorem TailsZero.preloaded {secs : List Section} {m : Mem}
    (haligned : ∀ s ∈ secs, 8 ∣ s.secAddr) (hapart : secs.Pairwise Apart)
    (h : TailsZero secs m) : Preloaded secs m (written secs m) where
  bytes := by
    intro s hs x hx
    obtain ⟨pre, post, rfl⟩ := List.append_of_mem hs
    have hlast : written [s] (written pre m) x = s.byteAt (s.offset x) :=
      written_self (lt_trans hx (span_bounds s).1) _
    rw [written_append]
    show written post (written [s] (written pre m)) x = _
    refine (written_keep (fun u hu => haligned u (by simp [hu])) (fun u hu => ?_) ?_).trans hlast
    · exact not_inWords (haligned s hs) (haligned u (by simp [hu])) (apart_post hapart u hu)
        (inWords_of_has hx)
    · intro u hu htail
      obtain ⟨mid, last, rfl⟩ := List.append_of_mem hu
      rw [← List.cons_append, ← List.append_assoc] at h
      exact hlast.trans (h.earlier _ u last rfl s (by simp) x htail hx)
  frame := fun _ hx => written_keep haligned hx fun s hs htail => h.spare s hs _ htail hx

/-- **Main result.** The preload ends, and leaves the sections in memory and all other words as
they were exactly if the tails clear nothing. -/
theorem preload_iff (secs : List Section) (haligned : ∀ s ∈ secs, 8 ∣ s.secAddr)
    (hlen : ∀ s ∈ secs, s.secLen < 2 ^ 63) (hapart : secs.Pairwise Apart) (dm : Dm) :
    ∃ writes, (∃ n, ∀ fuel ≥ n, jtagElfPreload fuel secs = some writes) ∧
      (Preloaded secs dm.mem (dm.run writes).mem ↔ TailsZero secs dm.mem) := by
  refine ⟨_, ⟨_, fun _ hfuel => jtagElfPreload_eq secs hfuel⟩, ?_⟩
  rw [file_run hlen]
  exact ⟨.of_preloaded haligned hapart, fun h => h.preloaded haligned hapart⟩

/-! ## Two neighbours -/

/-- Eight bytes at `a`. -/
def eight (a : ℕ) : Section := ⟨a, List.replicate 8 1⟩

/-- A debug module before the preload, in front of memory full of zeros. -/
def idle : Dm := ⟨⟨false, false, 0⟩, 0, 0, fun _ => 0⟩

/-- In ascending order, the tail of the first section is overwritten. -/
theorem preload_ascending :
    ∃ writes, (∃ n, ∀ fuel ≥ n, jtagElfPreload fuel [eight 0, eight 8] = some writes) ∧
      Preloaded [eight 0, eight 8] idle.mem (idle.run writes).mem := by
  obtain ⟨writes, hrun, hiff⟩ := preload_iff [eight 0, eight 8] (by decide) (by decide)
    (List.pairwise_pair.2 (apart_of_le (by decide) (by decide))) idle
  refine ⟨writes, hrun, hiff.2 ⟨fun pre s post hsplit t ht x htail hx => ?_, fun _ _ _ _ _ => rfl⟩⟩
  obtain ⟨rfl, rfl⟩ : t = eight 0 ∧ s = eight 8 := by
    rcases pre with _ | ⟨a, _ | ⟨b, pre⟩⟩
    · exact absurd ht List.not_mem_nil
    · simp only [List.cons_append, List.nil_append, List.cons.injEq] at hsplit
      exact ⟨(List.mem_singleton.1 ht).trans hsplit.1.symm, hsplit.2.1.symm⟩
    · simp at hsplit
  have hbase₀ : (eight 0).base.toNat = 0 := rfl
  have hbase₈ : (eight 8).base.toNat = 8 := rfl
  have hlen (a : ℕ) : (eight a).secLen = 8 := rfl
  have hoff := htail.2
  rw [offset_eq, hbase₈, hlen] at hoff
  unfold Section.Has at hx
  rw [offset_eq, hbase₀, hlen] at hx
  omega

/-- In descending order, the section that was loaded first is lost. -/
theorem preload_descending :
    ¬∀ secs : List Section, (∀ s ∈ secs, 8 ∣ s.secAddr) → (∀ s ∈ secs, s.secLen < 2 ^ 63) →
      secs.Pairwise Apart → ∀ (dm : Dm) (n : ℕ) (writes : List DmiWrite),
        (∀ fuel ≥ n, jtagElfPreload fuel secs = some writes) →
          Preloaded secs dm.mem (dm.run writes).mem := by
  intro h
  have hlen : ∀ s ∈ [eight 8, eight 0], s.secLen < 2 ^ 63 := by decide
  have hloaded := h [eight 8, eight 0] (by decide) hlen
    (List.pairwise_pair.2 (apart_of_le (by decide) (by decide)).symm) idle _ _
    fun _ hfuel => jtagElfPreload_eq _ hfuel
  rw [file_run hlen] at hloaded
  have hbyte := hloaded.bytes (eight 8) List.mem_cons_self 8 (by decide)
  exact absurd hbyte (by decide)

end Cheshire.JtagPreload
