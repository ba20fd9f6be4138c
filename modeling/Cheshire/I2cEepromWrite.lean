import Cheshire.I2cEepromAddress
import Mathlib.Data.List.GetD
import Mathlib.Data.List.Induction

/-!
# Writing the I2C EEPROM: `i2c_24fc1025_write`

The device collects the bytes of a transfer and stores them when it is ended by a STOP
(`replay`). The driver means to end each half of a chunk with one, but queues the last byte like
the others.

**Theorem (`replay_stores`).** A write that is ended by a STOP and stays on a page is stored.

**Theorem (`write_never_stores`).** No transfer of a write is ended by a STOP, so whatever a write
queues leaves the EEPROM as it was.
-/

namespace Cheshire.I2cEeprom

open Lib Cmd

/-! ## The device -/

/-- The cell at offset `i` from cell `c`, on the same page of 128 bytes. -/
def inPage (c i : ℕ) : ℕ := c / 128 * 128 + (c + i) % 128

/-- Consecutive bytes go to consecutive cells of a page. -/
def storePage (eeprom : ℕ → Byte) (c : ℕ) (data : List Byte) : ℕ → Byte :=
  data.zipIdx.foldl (fun f b => Function.update f (inPage c b.2) b.1) eeprom

/-- What the bytes of a transfer do that is ended by a STOP. -/
def commit (eeprom : ℕ → Byte) : List Byte → ℕ → Byte
  | ctrl :: hi :: lo :: data =>
    if ctrl &&& 1 = 0 then storePage eeprom (cell ctrl hi lo) data else eeprom
  | _ => eeprom

/-- The cells, and the bytes since the last START. -/
structure Device where
  eeprom : ℕ → Byte
  bytes : List Byte

def Device.step (d : Device) (e : Entry) : Device :=
  match e.fmt with
  | .start => { d with bytes := [e.byte] }
  | .tx => { d with bytes := d.bytes ++ [e.byte] }
  | .txStop => ⟨commit d.eeprom (d.bytes ++ [e.byte]), []⟩
  | .rx => { d with bytes := [] }

/-- The cells after the queued bytes have been sent. -/
def replay (eeprom : ℕ → Byte) (l : List Entry) : ℕ → Byte :=
  (l.foldl Device.step ⟨eeprom, []⟩).eeprom

/-- A write of some bytes, the last of which is `last`. -/
structure BusWrite where
  ctrl : Byte
  hi : Byte
  lo : Byte
  data : List Byte
  last : Byte

def BusWrite.entries (w : BusWrite) : List Entry :=
  ⟨w.ctrl, .start⟩ :: ⟨w.hi, .tx⟩ :: ⟨w.lo, .tx⟩ :: (w.data.map (⟨·, .tx⟩) ++ [⟨w.last, .txStop⟩])

/-- Such a write stores its bytes. -/
theorem replay_entries (w : BusWrite) (hctrl : w.ctrl &&& 1 = 0) (eeprom : ℕ → Byte) :
    replay eeprom w.entries = storePage eeprom (cell w.ctrl w.hi w.lo) (w.data ++ [w.last]) := by
  have hdata (bytes : List Byte) (data : List Byte) :
      (data.map (⟨·, .tx⟩)).foldl Device.step ⟨eeprom, bytes⟩ = ⟨eeprom, bytes ++ data⟩ := by
    induction data generalizing bytes with
    | nil => rw [List.append_nil]; rfl
    | cons b data ih =>
      rw [List.map_cons, List.foldl_cons, List.append_cons, ← ih]
      rfl
  unfold replay BusWrite.entries
  rw [List.foldl_cons, List.foldl_cons, List.foldl_cons, List.foldl_append]
  show (List.foldl Device.step (List.foldl Device.step
    ⟨eeprom, [w.ctrl, w.hi, w.lo]⟩ (w.data.map (⟨·, .tx⟩))) _).eeprom = _
  rw [hdata]
  exact if_pos hctrl

theorem inPage_eq {c i : ℕ} (h : c % 128 + i < 128) : inPage c i = c + i := by
  unfold inPage
  omega

theorem storePage_concat (eeprom : ℕ → Byte) (c : ℕ) (data : List Byte) (b : Byte) :
    storePage eeprom c (data ++ [b]) =
      Function.update (storePage eeprom c data) (inPage c data.length) b := by
  simp [storePage, List.zipIdx_append]

/-- Bytes that stay on the page go where they are meant to, and nowhere else. -/
theorem storePage_apply {eeprom : ℕ → Byte} {c : ℕ} {data : List Byte}
    (h : c % 128 + data.length ≤ 128) (x : ℕ) : storePage eeprom c data x =
      if c ≤ x ∧ x < c + data.length then data.getD (x - c) 0 else eeprom x := by
  induction data using List.reverseRecOn with
  | nil => exact (if_neg (by simp)).symm
  | append_singleton data b ih =>
    rw [List.length_append, List.length_singleton] at h
    rw [storePage_concat, inPage_eq (by omega), Function.update_apply, ih (by omega),
      List.length_append, List.length_singleton]
    by_cases hx : x = c + data.length
    · rw [if_pos hx, if_pos (by omega), hx, Nat.add_sub_cancel_left]
      simp
    · rw [if_neg hx]
      by_cases hin : c ≤ x ∧ x < c + data.length
      · rw [if_pos hin, if_pos (by omega), List.getD_append _ _ _ _ (by omega)]
      · rw [if_neg hin, if_neg (by omega)]

/-- A write with a STOP that stays on a page stores its bytes, and no others. -/
theorem replay_stores (w : BusWrite) (hctrl : w.ctrl &&& 1 = 0)
    (hpage : cell w.ctrl w.hi w.lo % 128 + w.data.length < 128) (eeprom : ℕ → Byte) (x : ℕ) :
    replay eeprom w.entries x =
      if cell w.ctrl w.hi w.lo ≤ x ∧ x ≤ cell w.ctrl w.hi w.lo + w.data.length then
        (w.data ++ [w.last]).getD (x - cell w.ctrl w.hi w.lo) 0
      else eeprom x := by
  have hlen : (w.data ++ [w.last]).length = w.data.length + 1 := List.length_append
  rw [replay_entries w hctrl, storePage_apply (by omega), hlen]
  simp only [← Nat.add_assoc, Nat.lt_succ_iff]

/-- What a write is for, with the EEPROM as it is before. -/
structure Stores (bus : Bus) (fuel : ℕ) (buf addr : U64) (len : ℕ) (eeprom : ℕ → Byte)
    (s s' : I2c) (l : List Entry) : Prop where
  ended : ∃ ws : List BusWrite, l = ws.flatMap BusWrite.entries
  data : ∀ i < len, replay eeprom l (addr.toNat + i) = s.mem (buf + BitVec.ofNat 64 i)
  frame : ∀ c, (∀ i < len, c ≠ addr.toNat + i) → replay eeprom l c = eeprom c
  inside : ∀ m : Mem, (∀ i < len, m (buf + BitVec.ofNat 64 i) = s.mem (buf + BitVec.ofNat 64 i)) →
    (finalState (write bus fuel buf addr len { s with mem := m })).log = s'.log
  readBack : ∀ bus' fuel' dst t t', bus'.eeprom = replay eeprom l →
    read bus' fuel' dst addr len t = .ok () t' →
    ∀ i < len, t'.mem (dst + BitVec.ofNat 64 i) = s.mem (buf + BitVec.ofNat 64 i)

/-! ## What a write queues -/

section Write

variable {bus : Bus} {fuel : ℕ} {buf addr : U64} {len : ℕ} {s s' : I2c} {l : List Entry}

abbrev Entry.NoStop (e : Entry) : Prop := e.fmt ≠ .txStop

theorem accessChunk_noStop (fuel : ℕ) (buf addr : U64) (len : ℕ) :
    Queues Entry.NoStop (accessChunk bus fuel buf addr len true) :=
  accessChunk_queues (fun _ => Fmt.noConfusion) (fun _ => Fmt.noConfusion)
    (fun h => absurd h.symm Bool.false_ne_true) fuel buf addr len

/-- Something has been queued. -/
def Longer (s s' : I2c) : Prop := s.log.length < s'.log.length

theorem Grows.length_le {P : Entry → Prop} (h : Grows P s s') : s.log.length ≤ s'.log.length := by
  obtain ⟨l, hl, -⟩ := h
  rw [hl, List.length_append]
  exact Nat.le_add_right _ _

/-- A chunk that returns 0 has queued at least its address. -/
theorem accessChunk_longer (fuel : ℕ) (buf addr : U64) (len : ℕ) (s : I2c) :
    Ends (accessChunk bus fuel buf addr len true s) (fun _ => Longer s) fun _ _ => True := by
  cases fuel with
  | zero => trivial
  | succ fuel =>
    refine Ends.bind (Ends.mono (pollLevels_silent _ fuel s) (fun _ _ h => h) fun _ _ _ => trivial)
      fun _ s₁ h₁ => ?_
    refine Ends.bind (Ends.mono (hostSetEnabled_silent false s₁) (fun _ _ h => h)
      fun _ _ _ => trivial) fun _ s₂ h₂ => ?_
    refine Ends.bind (Ends.mono (writeByte_ends _ _ s₂) (fun _ _ h => h) fun _ _ _ => trivial)
      fun _ s₃ h₃ => ?_
    have hlong : Longer s s₃ := by
      unfold Longer
      rw [h₃, h₂, h₁, List.length_append]
      exact Nat.lt_succ_self _
    refine Ends.mono (Q := fun _ => Grows (fun _ => True) s₃)
      (E := fun _ => Grows (fun _ => True) s₃) ?_ (fun _ _ h => hlong.trans_le h.length_le)
      fun _ _ _ => trivial
    refine Queues.bind (writeByte_queues trivial) (fun _ => ?_) s₃
    refine (writeByte_queues trivial).bind fun _ => ?_
    refine (writeRest_queues (fun _ => trivial) buf len (bus.fifoDepth / 2)).bind fun _ => ?_
    refine Queues.ite (fun _ => ?_) fun _ _ => Grows.refl rfl
    exact accessChunk_queues (fun _ => trivial) (fun _ => trivial) (fun _ _ => ⟨trivial, trivial⟩)
      _ _ _ _

theorem chunks_noStop (fuel : ℕ) (buf addr : U64) (len i : ℕ) :
    Queues Entry.NoStop (Cmd.forStep len bus.fifoDepth (fun offs =>
      accessChunk bus fuel (buf + BitVec.ofNat 64 offs) (addr + BitVec.ofNat 64 offs)
        (min bus.fifoDepth (len - offs)) true) len i) :=
  Queues.forStep (fun _ => accessChunk_noStop _ _ _ _) _ _ _ _

theorem write_noStop (fuel : ℕ) (buf addr : U64) (len : ℕ) :
    Queues Entry.NoStop (write bus fuel buf addr len) := by
  refine Queues.ite (fun _ _ => Grows.refl rfl) fun _ => ?_
  exact Queues.ite (fun _ => (accessChunk_noStop _ _ _ _).bind fun _ => chunks_noStop _ _ _ _ _)
    fun _ => chunks_noStop _ _ _ _ _

/-- A write of at least one byte that returns 0 has queued something. -/
theorem write_longer (hlen : 1 ≤ len) (s : I2c) :
    Ends (write bus fuel buf addr len s) (fun _ => Longer s) fun _ _ => True := by
  have hthen {y : M Unit} (hy : Queues Entry.NoStop y) (buf addr : U64) (n : ℕ) :
      Ends ((accessChunk bus fuel buf addr n true >>= fun _ => y) s) (fun _ => Longer s)
        fun _ _ => True := by
    refine (accessChunk_longer fuel buf addr n s).bind fun _ s₁ h => ?_
    exact (hy s₁).mono (fun _ _ h' => h.trans_le h'.length_le) fun _ _ _ => trivial
  unfold write access
  by_cases hdepth : 128 % bus.fifoDepth ≠ 0
  · rw [if_pos hdepth]
    trivial
  rw [if_neg hdepth]
  by_cases hoffs : addr.toNat % bus.fifoDepth ≠ 0
  · rw [if_pos hoffs]
    exact hthen (chunks_noStop _ _ _ _ _) _ _ _
  · rw [if_neg hoffs, if_neg hoffs]
    -- the first iteration
    obtain ⟨n, rfl⟩ := Nat.exists_eq_add_of_le' hlen
    show Ends (Cmd.forStep (n + 1) bus.fifoDepth _ (n + 1) 0 s) _ _
    rw [Cmd.forStep, if_pos (Nat.succ_pos n)]
    exact hthen (Queues.forStep (fun _ => accessChunk_noStop _ _ _ _) _ _ _ _) _ _ _

theorem write_log (hlen : 1 ≤ len) (h : write bus fuel buf addr len s = .ok () s') :
    ∃ l, s'.log = s.log ++ l ∧ l ≠ [] ∧ ∀ e ∈ l, e.NoStop := by
  have hgrows := @write_noStop bus fuel buf addr len s
  have hlong := @write_longer bus fuel buf addr len hlen s
  rw [h] at hgrows hlong
  obtain ⟨l, hl, hstop⟩ := hgrows
  refine ⟨l, hl, ?_, hstop⟩
  rintro rfl
  have hlt : s.log.length < s'.log.length := hlong
  rw [hl, List.append_nil] at hlt
  exact absurd hlt (lt_irrefl _)

/-! ## Without a STOP -/

theorem foldl_noStop (hstop : ∀ e ∈ l, e.NoStop) (d : Device) :
    (l.foldl Device.step d).eeprom = d.eeprom := by
  refine List.foldlRecOn (motive := fun d' : Device => d'.eeprom = d.eeprom) l _ rfl
    fun d' hd e he => ?_
  have hstep : (d'.step e).eeprom = d'.eeprom := by
    have hne := hstop e he
    unfold Device.step
    cases hfmt : e.fmt with
    | txStop => exact absurd hfmt hne
    | _ => rfl
  exact hstep.trans hd

theorem replay_noStop (hstop : ∀ e ∈ l, e.NoStop) (eeprom : ℕ → Byte) : replay eeprom l = eeprom :=
  foldl_noStop hstop ⟨eeprom, []⟩

/-- A write on the bus has a STOP. -/
theorem not_ended (hne : l ≠ []) (hstop : ∀ e ∈ l, e.NoStop) :
    ¬∃ ws : List BusWrite, l = ws.flatMap BusWrite.entries := by
  rintro ⟨ws, rfl⟩
  cases ws with
  | nil => exact hne rfl
  | cons w ws =>
    refine hstop ⟨w.last, .txStop⟩ (List.mem_flatMap.2 ⟨w, List.mem_cons_self, ?_⟩) rfl
    simp [BusWrite.entries]

/-! ## Main result -/

/-- **Main result.** What a write that returns 0 has queued leaves every EEPROM as it was, and
is not what a write is for. -/
theorem write_never_stores (hlen : 1 ≤ len) (h : write bus fuel buf addr len s = .ok () s')
    (hl : s'.log = s.log ++ l) (eeprom : ℕ → Byte) :
    replay eeprom l = eeprom ∧ ¬Stores bus fuel buf addr len eeprom s s' l := by
  obtain ⟨l', hl', hne, hstop⟩ := write_log hlen h
  obtain rfl : l = l' := List.append_cancel_left (hl.symm.trans hl')
  exact ⟨replay_noStop hstop eeprom, fun hst => not_ended hne hstop hst.ended⟩

end Write

/-- A write of one byte on `freeBus`. -/
theorem freeBus_write : ∃ s' l, write freeBus 2 0x1000 0 1 freshState = .ok () s' ∧
    s'.log = freshState.log ++ l :=
  ⟨_, _, rfl, rfl⟩

theorem write_never_stores_one : ∃ s' l, write freeBus 2 0x1000 0 1 freshState = .ok () s' ∧
    replay (fun _ => 0xFF) l = (fun _ => 0xFF) ∧
      ¬Stores freeBus 2 0x1000 0 1 (fun _ => 0xFF) freshState s' l := by
  obtain ⟨s', l, h, hl⟩ := freeBus_write
  exact ⟨s', l, h, write_never_stores (by decide) h hl _⟩

/-- An erased EEPROM does not hold the byte that was written to it. -/
theorem write_one_lost : ∃ s' l, write freeBus 2 0x1000 0 1 freshState = .ok () s' ∧
    s'.log = freshState.log ++ l ∧ replay (fun _ => 0xFF) l 0 ≠ freshState.mem 0x1000 ∧
      ¬Stores freeBus 2 0x1000 0 1 (fun _ => 0xFF) freshState s' l := by
  obtain ⟨s', l, h, hl⟩ := freeBus_write
  obtain ⟨l', hl', hne, hstop⟩ := write_log (by decide) h
  obtain rfl : l = l' := List.append_cancel_left (hl.symm.trans hl')
  refine ⟨s', l, h, hl, ?_, fun hst => not_ended hne hstop hst.ended⟩
  rw [replay_noStop hstop]
  decide

end Cheshire.I2cEeprom
