import Mathlib.Data.List.GetD
import Mathlib.Data.List.Infix
import Mathlib.Tactic.Ring

/-!
# Asynchronous serial lines

A line idles high. A frame is a start bit, which is low, some data bits, and a stop bit, which is
high; each lasts for `T`. The receiver waits for the line to fall, then for half a period of its
own, and takes a sample after each further period. It waits for the line to fall again one period
after the last data bit.

An event at the time of another may come before or after it. So a sample gives the level of the
line before or after a change at its time (`Sample`), and a receiver that begins to wait at the
time of a fall may or may not see it (`Read`).

**Theorem (`receives_iff`).** Every sequence of frames is received if and only if the last data bit
is sampled after it has begun, and the receiver waits again before the frame is over.
-/

namespace Lib.Serial

/-- The level of a line over time. -/
abbrev Line := ℕ → Bool

def frame (data : List Bool) : List Bool := false :: (data ++ [true])

/-! ## Sending -/

/-- From `t` on the line carries the bits, each of them for `T`. -/
def Holds (line : Line) (T t : ℕ) (bits : List Bool) : Prop :=
  ∀ i < bits.length, ∀ u, t + i * T ≤ u → u < t + (i + 1) * T → line u = bits.getD i true

/-- From `t` on the line carries the frames, with the pauses before them, and nothing else. -/
def Carries (line : Line) (T : ℕ) : ℕ → List (ℕ × List Bool) → Prop
  | t, [] => ∀ u, t ≤ u → line u = true
  | t, (pause, data) :: rest => (∀ u, t ≤ u → u < t + pause → line u = true) ∧
      Holds line T (t + pause) (frame data) ∧
      Carries line T (t + pause + (data.length + 2) * T) rest

/-- The line is high at first, and carries the frames from time 1 on. -/
def Sends (line : Line) (T : ℕ) (sent : List (ℕ × List Bool)) : Prop :=
  line 0 = true ∧ Carries line T 1 sent

/-- The line that carries the frames from `t` on. -/
def wave (T : ℕ) : ℕ → List (ℕ × List Bool) → Line
  | _, [], _ => true
  | t, (pause, data) :: rest, u =>
    if u < t + pause then true
    else if u < t + pause + (data.length + 2) * T then
      (frame data).getD ((u - (t + pause)) / T) true
    else wave T (t + pause + (data.length + 2) * T) rest u

/-! ## Receiving -/

def Fall (line : Line) (e : ℕ) : Prop := 1 ≤ e ∧ line (e - 1) = true ∧ line e = false

/-- The first fall from `a` on. -/
def NextFall (line : Line) (a e : ℕ) : Prop :=
  Fall line e ∧ a ≤ e ∧ ∀ u, a ≤ u → u < e → ¬Fall line u

def Sample (line : Line) (u : ℕ) (b : Bool) : Prop := b = line u ∨ b = line (u - 1)

structure Timing where
  half : ℕ
  period : ℕ

/-- The receiver takes a sample for each bit of `data`. It sees falls from `a` on, and again from
`a'` on. -/
def Read (r : Timing) (n : ℕ) (line : Line) (a : ℕ) (data : List Bool) (a' : ℕ) : Prop :=
  ∃ e, NextFall line a e ∧ data.length = n ∧
    (∀ i < n, Sample line (e + r.half + (i + 1) * r.period) (data.getD i true)) ∧
    (a' = e + r.half + (n + 1) * r.period ∨ a' = e + r.half + (n + 1) * r.period + 1)

/-- What the receiver has read after some frames. -/
inductive Reads (r : Timing) (n : ℕ) (line : Line) (a : ℕ) : List (List Bool) → ℕ → Prop
  | nil : Reads r n line a [] a
  | snoc {l : List (List Bool)} {a₁ a' : ℕ} {data : List Bool} (h : Reads r n line a l a₁)
      (hread : Read r n line a₁ data a') : Reads r n line a (l ++ [data]) a'

/-- Whatever the receiver has read is the beginning of `sent`, and it goes on to its end. -/
def Receives (r : Timing) (n : ℕ) (line : Line) (sent : List (List Bool)) : Prop :=
  ∀ l a', Reads r n line 0 l a' →
    l <+: sent ∧ (l ≠ sent → ∃ data a'', Read r n line a' data a'')

/-- The last data bit is sampled after it has begun, and the receiver waits again before the frame
is over. -/
def InTime (r : Timing) (n T : ℕ) : Prop :=
  n * T < r.half + n * r.period ∧ r.half + (n + 1) * r.period < (n + 2) * T

/-! ## The levels of a frame -/

section Frame

variable {line : Line} {T t : ℕ} {data : List Bool}

/-- Every time within some bits lies in one of them. -/
theorem exists_bit {k u : ℕ} (hle : t ≤ u) (hlt : u < t + k * T) :
    ∃ i < k, t + i * T ≤ u ∧ u < t + (i + 1) * T := by
  have hT : 0 < T := Nat.pos_of_ne_zero fun h0 => by
    rw [h0] at hlt
    omega
  have hdown := Nat.div_mul_le_self (u - t) T
  have hup := Nat.lt_div_mul_add (a := u - t) hT
  have hnext : ((u - t) / T + 1) * T = (u - t) / T * T + T := Nat.succ_mul _ _
  refine ⟨(u - t) / T, Nat.div_lt_of_lt_mul ?_, ?_, ?_⟩
  · rw [Nat.mul_comm]
    omega
  · omega
  · omega

theorem frame_length (data : List Bool) : (frame data).length = data.length + 2 := by
  simp [frame]

theorem Holds.level {bits : List Bool} (h : Holds line T t bits) {i u : ℕ} (hi : i < bits.length)
    (hle : t + i * T ≤ u) (hlt : u < t + (i + 1) * T) : line u = bits.getD i true :=
  h i hi u hle hlt

theorem Holds.start (h : Holds line T t (frame data)) {u : ℕ} (hle : t ≤ u) (hlt : u < t + T) :
    line u = false := by
  have hlevel := h.level (i := 0) (u := u) (by simp [frame]) (by omega) (by omega)
  rw [hlevel]
  rfl

theorem Holds.bit (h : Holds line T t (frame data)) {i u : ℕ} (hi : i < data.length)
    (hle : t + (i + 1) * T ≤ u) (hlt : u < t + (i + 2) * T) : line u = data.getD i true := by
  rw [h.level (i := i + 1) (by rw [frame_length]; omega) hle hlt, frame, List.getD_cons_succ,
    List.getD_append _ _ _ _ hi]

theorem Holds.stop (h : Holds line T t (frame data)) {u : ℕ}
    (hle : t + (data.length + 1) * T ≤ u) (hlt : u < t + (data.length + 2) * T) :
    line u = true := by
  rw [h.level (i := data.length + 1) (by rw [frame_length]; omega) hle hlt, frame,
    List.getD_cons_succ, List.getD_append_right _ _ _ _ le_rfl, Nat.sub_self]
  rfl

/-- After the beginning of the last bit before the stop bit, the line does not fall. -/
theorem Holds.no_fall (h : Holds line T t (frame data)) {u : ℕ}
    (hle : t + data.length * T < u) (hlt : u < t + (data.length + 2) * T) : ¬Fall line u := by
  rintro ⟨-, hhigh, hlow⟩
  have hsplit : (data.length + 1) * T = data.length * T + T := Nat.succ_mul _ _
  by_cases hstop : t + (data.length + 1) * T ≤ u
  · rw [h.stop hstop hlt] at hlow
    exact Bool.noConfusion hlow
  · have hlen : data.length < (frame data).length := by rw [frame_length]; omega
    rw [h.level hlen (by omega) (by omega)] at hhigh hlow
    rw [hhigh] at hlow
    exact Bool.noConfusion hlow

end Frame

/-! ## Times -/

section Time

variable {r : Timing} {n T : ℕ}

theorem InTime.pos (h : InTime r n T) : 1 ≤ T :=
  Nat.pos_of_ne_zero fun h0 => by
    have hdone := h.2
    rw [h0] at hdone
    omega

/-- If the last data bit is not sampled too early, no data bit is. -/
theorem InTime.late (h : InTime r n T) {k : ℕ} (hpos : 1 ≤ k) (hk : k ≤ n) :
    k * T < r.half + k * r.period := by
  obtain ⟨hlast, -⟩ := h
  rcases Nat.lt_or_ge T r.period with hlt | hge
  · have hmul : k * T < k * r.period := Nat.mul_lt_mul_of_pos_left hlt hpos
    omega
  · obtain ⟨x, rfl⟩ := Nat.exists_eq_add_of_le hge
    have hmul : k * x ≤ n * x := Nat.mul_le_mul_right x hk
    rw [Nat.mul_add] at hlast ⊢
    omega

/-- If the receiver is done before the frame is, no data bit is sampled too late. -/
theorem InTime.early (h : InTime r n T) (hhalf : r.half ≤ r.period) {k : ℕ} (hk : k ≤ n) :
    r.half + k * r.period < (k + 1) * T := by
  obtain ⟨-, hdone⟩ := h
  rcases Nat.lt_or_ge r.period T with hlt | hge
  · have hmul : (k + 1) * r.period < (k + 1) * T := Nat.mul_lt_mul_of_pos_left hlt k.succ_pos
    have hsplit : (k + 1) * r.period = k * r.period + r.period := Nat.succ_mul _ _
    omega
  · obtain ⟨m, rfl⟩ := Nat.exists_eq_add_of_le hk
    have hmul : (m + 1) * T ≤ (m + 1) * r.period := Nat.mul_le_mul_left _ hge
    have hleft : (k + m + 1) * r.period = k * r.period + (m + 1) * r.period := by ring
    have hright : (k + m + 2) * T = (k + 1) * T + (m + 1) * T := by ring
    omega

end Time

/-! ## One frame -/

section OneFrame

variable {r : Timing} {n T t a a' : ℕ} {line : Line} {data data' : List Bool}

/-- The receiver waits at `a` for a fall, and the line has none before `t`. -/
def Armed (line : Line) (a t : ℕ) : Prop := a ≤ t ∧ ∀ u, a ≤ u → u < t → ¬Fall line u

theorem nextFall_unique {e e' : ℕ} (h : NextFall line a e) (h' : NextFall line a e') : e = e' := by
  obtain ⟨hfall, hle, hfirst⟩ := h
  obtain ⟨hfall', hle', hfirst'⟩ := h'
  rcases Nat.lt_trichotomy e e' with hlt | heq | hlt
  · exact absurd hfall (hfirst' e hle hlt)
  · exact heq
  · exact absurd hfall' (hfirst e' hle' hlt)

/-- A sample within a bit is that bit, on which side of an event it may be. -/
theorem Holds.sample (h : Holds line T t (frame data)) {i u : ℕ} {b : Bool}
    (hi : i < data.length) (hlt : t + (i + 1) * T < u) (hgt : u < t + (i + 2) * T)
    (hs : Sample line u b) : b = data.getD i true := by
  rcases hs with hs | hs
  · rw [hs, h.bit hi hlt.le hgt]
  · rw [hs, h.bit hi (by omega) (by omega)]

/-- A frame is read as it is. The receiver waits again before the frame is over, and the line does
not fall before that. -/
theorem read_frame (htime : InTime r n T) (hhalf : r.half ≤ r.period)
    (h : Holds line T t (frame data)) (hlen : data.length = n) (hnext : NextFall line a t)
    (hread : Read r n line a data' a') :
    data' = data ∧ Armed line a' (t + (n + 2) * T) := by
  obtain ⟨e, hfall, hlen', hsamples, hend⟩ := hread
  obtain rfl := nextFall_unique hnext hfall
  have hlate := htime.2
  have hsum : (n + 1) * r.period = n * r.period + r.period := Nat.succ_mul _ _
  have hearly := htime.1
  refine ⟨List.ext_getElem (hlen'.trans hlen.symm) fun i hi hi' => ?_, ?_, fun u hle hlt => ?_⟩
  · have hin : i < n := hlen' ▸ hi
    have hbegun : (i + 1) * T < r.half + (i + 1) * r.period := htime.late (by omega) (by omega)
    have hover : r.half + (i + 1) * r.period < (i + 2) * T := htime.early hhalf (by omega)
    have hs := h.sample hi' (by omega) (by omega) (hsamples i hin)
    rwa [List.getD_eq_getElem _ _ hi, List.getD_eq_getElem _ _ hi'] at hs
  · omega
  · refine h.no_fall ?_ (by rwa [hlen])
    rw [hlen]
    omega

/-- The receiver reads something at every fall. -/
theorem exists_read (r : Timing) (n : ℕ) {e : ℕ} (hnext : NextFall line a e) :
    ∃ data, ∀ a', a' = e + r.half + (n + 1) * r.period ∨
      a' = e + r.half + (n + 1) * r.period + 1 → Read r n line a data a' := by
  refine ⟨(List.range n).map fun i => line (e + r.half + (i + 1) * r.period), fun a' ha' =>
    ⟨e, hnext, by simp, fun i hi => Or.inl ?_, ha'⟩⟩
  rw [List.getD_eq_getElem _ _ (by simpa using hi)]
  simp

end OneFrame

/-! ## All frames -/

section Run

variable {r : Timing} {n T t a a' : ℕ} {line : Line} {data : List Bool}
  {sent rest : List (ℕ × List Bool)} {p : ℕ × List Bool} {l : List (List Bool)}

/-- The receiver waits at `a`, and these frames are to come. -/
def Awaits (line : Line) (T a : ℕ) (rest : List (ℕ × List Bool)) : Prop :=
  ∃ t, 1 ≤ t ∧ line (t - 1) = true ∧ Armed line a t ∧ Carries line T t rest

theorem Awaits.nil (h : Awaits line T a []) (e : ℕ) : ¬NextFall line a e := by
  rintro ⟨hfall, hle, -⟩
  obtain ⟨t, -, -, ⟨-, hnone⟩, hidle⟩ := h
  by_cases het : e < t
  · exact hnone e hle het hfall
  · obtain ⟨-, -, hlow⟩ := hfall
    rw [hidle e (not_lt.1 het)] at hlow
    exact Bool.noConfusion hlow

/-- The next fall is that of the next frame. -/
theorem Awaits.cons (h : Awaits line T a (p :: rest)) (hT : 1 ≤ T) : ∃ e, NextFall line a e ∧
    Holds line T e (frame p.2) ∧ Carries line T (e + (p.2.length + 2) * T) rest := by
  obtain ⟨t, ht, hhigh, ⟨hle, hnone⟩, hpause, hframe, hrest⟩ := h
  have hlow := hframe.start le_rfl (Nat.lt_add_of_pos_right hT)
  have hbefore : line (t + p.1 - 1) = true := by
    rcases Nat.eq_zero_or_pos p.1 with hzero | hpos
    · rw [hzero]
      exact hhigh
    · exact hpause _ (by omega) (by omega)
  refine ⟨t + p.1, ⟨⟨by omega, hbefore, hlow⟩, by omega, fun u hau hue hfall => ?_⟩, hframe, hrest⟩
  by_cases hut : u < t
  · exact hnone u hau hut hfall
  · have hfell := hfall.2.2
    rw [hpause u (not_lt.1 hut) hue] at hfell
    exact Bool.noConfusion hfell

/-- What one frame preserves. -/
theorem Awaits.read (h : Awaits line T a (p :: rest)) (htime : InTime r n T)
    (hhalf : r.half ≤ r.period) (hlen : p.2.length = n) (hread : Read r n line a data a') :
    data = p.2 ∧ Awaits line T a' rest := by
  have hT := htime.pos
  obtain ⟨e, hnext, hframe, hrest⟩ := h.cons hT
  obtain ⟨hdata, harmed⟩ := read_frame htime hhalf hframe hlen hnext hread
  rw [hlen] at hrest
  have hsplit : (n + 2) * T = (n + 1) * T + T := Nat.succ_mul _ _
  refine ⟨hdata, e + (n + 2) * T, by omega, hframe.stop ?_ ?_, harmed, hrest⟩
  · rw [hlen]
    omega
  · rw [hlen]
    omega

/-- What any number of frames preserves. -/
theorem Reads.awaits (h : Reads r n line 0 l a) (hsent : Awaits line T 0 sent)
    (hlen : ∀ p ∈ sent, p.2.length = n) (htime : InTime r n T) (hhalf : r.half ≤ r.period) :
    ∃ done rest, sent = done ++ rest ∧ l = done.map Prod.snd ∧ Awaits line T a rest := by
  induction h with
  | nil => exact ⟨[], sent, rfl, rfl, hsent⟩
  | snoc h hread ih =>
    obtain ⟨done, rest, hsplit, hl, hawaits⟩ := ih
    cases rest with
    | nil =>
      obtain ⟨e, hnext, -⟩ := hread
      exact absurd hnext (hawaits.nil e)
    | cons p rest =>
      have hp : p.2.length = n := hlen p (by rw [hsplit]; simp)
      obtain ⟨hdata, hrest⟩ := hawaits.read htime hhalf hp hread
      refine ⟨done ++ [p], rest, by rw [hsplit, List.append_assoc]; rfl, ?_, hrest⟩
      rw [hl, hdata, List.map_append]
      rfl

theorem Reads.lengths {a₀ : ℕ} (h : Reads r n line a₀ l a) {d : List Bool} (hd : d ∈ l) :
    d.length = n := by
  induction h with
  | nil => exact absurd hd List.not_mem_nil
  | snoc h hread ih =>
    obtain ⟨e, -, hlen, -⟩ := hread
    rcases List.mem_append.1 hd with hd | hd
    · exact ih hd
    · rw [List.mem_singleton.1 hd, hlen]

theorem Sends.awaits (h : Sends line T sent) : Awaits line T 0 sent := by
  refine ⟨1, le_rfl, h.1, ⟨Nat.zero_le 1, fun u _ hu hfall => ?_⟩, h.2⟩
  have hpos := hfall.1
  omega

/-- A receiver in time receives what is sent. -/
theorem Sends.receives (h : Sends line T sent) (hlen : ∀ p ∈ sent, p.2.length = n)
    (htime : InTime r n T) (hhalf : r.half ≤ r.period) :
    Receives r n line (sent.map Prod.snd) := by
  intro l a hreads
  obtain ⟨done, rest, rfl, rfl, hawaits⟩ := hreads.awaits h.awaits hlen htime hhalf
  rw [List.map_append]
  refine ⟨List.prefix_append _ _, fun hne => ?_⟩
  cases rest with
  | nil => exact absurd (by simp) hne
  | cons p rest =>
    obtain ⟨e, hnext, -⟩ := hawaits.cons htime.pos
    obtain ⟨data, hread⟩ := exists_read r n hnext
    exact ⟨data, _, hread _ (.inl rfl)⟩

end Run

/-! ## Every line is sent -/

section Wave

variable {T t : ℕ} {line line' : Line} {sent : List (ℕ × List Bool)}

theorem Carries.congr (h : Carries line T t sent) (heq : ∀ u, t ≤ u → line u = line' u) :
    Carries line' T t sent := by
  induction sent generalizing t with
  | nil => exact fun u hu => (heq u hu).symm.trans (h u hu)
  | cons p rest ih =>
    obtain ⟨hpause, hframe, hrest⟩ := h
    refine ⟨fun u hu hlt => (heq u hu).symm.trans (hpause u hu hlt), fun i hi u hle hlt => ?_,
      ih hrest fun u hu => heq u (by omega)⟩
    rw [← heq u (by omega)]
    exact hframe i hi u hle hlt

theorem wave_carries (T t : ℕ) (sent : List (ℕ × List Bool)) :
    Carries (wave T t sent) T t sent := by
  induction sent generalizing t with
  | nil => exact fun _ _ => rfl
  | cons p rest ih =>
    refine ⟨fun u _ hlt => if_pos hlt, fun i hi u hle hlt => ?_, (ih _).congr fun u hu => ?_⟩
    · have hT : 0 < T := Nat.pos_of_ne_zero fun h0 => by
        rw [h0] at hlt
        omega
      have hend : (i + 1) * T ≤ (p.2.length + 2) * T :=
        Nat.mul_le_mul_right T (by rwa [frame_length] at hi)
      have hdiv : (u - (t + p.1)) / T = i :=
        Nat.div_eq_of_lt_le (by omega) (by omega)
      rw [wave, if_neg (by omega), if_pos (by omega), hdiv]
    · rw [wave, if_neg (by omega), if_neg (by omega)]

theorem wave_sends (T : ℕ) (sent : List (ℕ × List Bool)) : Sends (wave T 1 sent) T sent := by
  refine ⟨?_, wave_carries T 1 sent⟩
  cases sent with
  | nil => rfl
  | cons p rest => exact if_pos (by omega)

end Wave

/-! ## Receivers that are not in time -/

section Late

variable {r : Timing} {n T t a : ℕ} {line : Line}

/-- All data bits are low except for the last one. -/
theorem low_before {m : ℕ} (h : Holds line T t (frame (List.replicate m false ++ [true]))) {u : ℕ}
    (hle : t ≤ u) (hlt : u < t + (m + 1) * T) : line u = false := by
  obtain ⟨i, hi, hbegun, hover⟩ := exists_bit hle hlt
  rw [h.level (by simp [frame]; omega) hbegun hover]
  cases i with
  | zero => rfl
  | succ i =>
    rw [frame, List.getD_cons_succ, List.append_assoc, List.getD_append _ _ _ _ (by simp; omega),
      List.getD_replicate _ (by omega)]

/-- A receiver that is too early may read the last data bit as the bit before it. -/
theorem not_receives_early (hn : 1 ≤ n) (hperiod : 1 ≤ r.period)
    (hearly : r.half + n * r.period ≤ n * T) :
    ¬Receives r n (wave T 1 [(0, List.replicate (n - 1) false ++ [true])])
      [List.replicate (n - 1) false ++ [true]] := by
  intro hrec
  have hsends := wave_sends T [(0, List.replicate (n - 1) false ++ [true])]
  generalize wave T 1 [(0, List.replicate (n - 1) false ++ [true])] = line at hrec hsends
  have hT : 1 ≤ T := Nat.pos_of_ne_zero fun h0 => by
    have hpos : 1 * 1 ≤ n * r.period := Nat.mul_le_mul hn hperiod
    rw [h0] at hearly
    omega
  obtain ⟨e, hnext, hframe, -⟩ := hsends.awaits.cons hT
  have hlow : line (e + r.half + n * r.period - 1) = false := by
    have hpos : 1 * 1 ≤ n * r.period := Nat.mul_le_mul hn hperiod
    refine low_before hframe (by omega) ?_
    rw [Nat.sub_add_cancel hn]
    omega
  have hread : Read r n line 0 ((List.range n).map fun i => if i + 1 = n then false
      else line (e + r.half + (i + 1) * r.period)) (e + r.half + (n + 1) * r.period) := by
    refine ⟨e, hnext, by simp, fun i hi => ?_, .inl rfl⟩
    rw [List.getD_eq_getElem _ _ (by simpa using hi), List.getElem_map, List.getElem_range]
    by_cases hlast : i + 1 = n
    · rw [if_pos hlast, hlast]
      exact .inr hlow.symm
    · rw [if_neg hlast]
      exact .inl rfl
  have hsame := (hrec _ _ (Reads.nil.snoc hread)).1.eq_of_length rfl
  have hlast := congrArg (fun l => l.getD (n - 1) false) (List.cons.inj hsame).1
  have hread : ((List.range n).map fun i => if i + 1 = n then false
      else line (e + r.half + (i + 1) * r.period)).getD (n - 1) false = false := by
    rw [List.getD_eq_getElem _ _ (by simp; omega), List.getElem_map, List.getElem_range,
      if_pos (by omega)]
  have hsent : (List.replicate (n - 1) false ++ [true]).getD (n - 1) false = true := by
    rw [List.getD_append_right _ _ _ _ (by simp)]
    simp
  exact Bool.false_ne_true (hread.symm.trans (hlast.trans hsent))

/-- Between its start bit and the next one, a frame of high bits does not fall. -/
theorem high_after (h : Holds line T t (frame (List.replicate n true))) {u : ℕ} (hle : t < u)
    (hlt : u < t + (n + 2) * T) : ¬Fall line u := by
  rintro ⟨-, hhigh, hlow⟩
  by_cases hstart : u < t + T
  · rw [h.start (u := u - 1) (by omega) (by omega)] at hhigh
    exact Bool.noConfusion hhigh
  · obtain ⟨i, hi, hbegun, hover⟩ := exists_bit hle.le hlt
    rw [h.level (by simp [frame]; omega) hbegun hover] at hlow
    have hone : 1 ≤ i := Nat.pos_of_ne_zero fun h0 => hstart (by rw [h0] at hover; omega)
    obtain ⟨i, rfl⟩ := Nat.exists_eq_add_of_le' hone
    rw [frame, List.getD_cons_succ] at hlow
    have hmem : (List.replicate n true ++ [true]).getD i true = true := by
      rw [show [true] = List.replicate 1 true from rfl, ← List.replicate_add]
      by_cases hin : i < n + 1
      · rw [List.getD_replicate _ hin]
      · omega
    rw [hmem] at hlow
    exact Bool.noConfusion hlow

/-- A receiver that is too late may miss the next frame. -/
theorem not_receives_late (hlate : (n + 2) * T ≤ r.half + (n + 1) * r.period) :
    ¬Receives r n (wave T 1 [(0, List.replicate n true), (0, List.replicate n true)])
      [List.replicate n true, List.replicate n true] := by
  intro hrec
  have hsends := wave_sends T [(0, List.replicate n true), (0, List.replicate n true)]
  generalize wave T 1 [(0, List.replicate n true), (0, List.replicate n true)] = line at hrec hsends
  rcases Nat.eq_zero_or_pos T with rfl | hT
  · -- The frames take no time, so nothing is sent.
    obtain ⟨data, a', e, ⟨⟨hpos, -, hlow⟩, -⟩, -⟩ := (hrec [] 0 .nil).2 (by simp)
    rw [hsends.2.2.2.2.2 e (by simp; omega)] at hlow
    exact Bool.noConfusion hlow
  · obtain ⟨e, hnext, -, hrest⟩ := hsends.awaits.cons hT
    rw [List.length_replicate] at hrest
    obtain ⟨-, hframe, hidle⟩ := hrest
    rw [Nat.add_zero] at hframe hidle
    obtain ⟨data, hread⟩ := exists_read r n hnext
    obtain ⟨data', a'', e', ⟨hfall, hle, -⟩, -⟩ :=
      (hrec _ _ (Reads.nil.snoc (hread _ (.inr rfl)))).2 (by simp)
    by_cases hin : e' < e + (n + 2) * T + (n + 2) * T
    · exact high_after hframe (by omega) hin hfall
    · have hlow := hfall.2.2
      rw [hidle e' (by rw [List.length_replicate]; omega)] at hlow
      exact Bool.noConfusion hlow

/-- **Main result.** Every sequence of frames is received, in every order of simultaneous events,
if and only if the receiver is in time. -/
theorem receives_iff (hn : 1 ≤ n) (hperiod : 1 ≤ r.period) (hhalf : r.half ≤ r.period) :
    (∀ line sent, (∀ p ∈ sent, p.2.length = n) → Sends line T sent →
      Receives r n line (sent.map Prod.snd)) ↔ InTime r n T := by
  refine ⟨fun h => ⟨not_le.1 fun hearly => ?_, not_le.1 fun hlate => ?_⟩,
    fun htime line sent hlen hsends => hsends.receives hlen htime hhalf⟩
  · refine not_receives_early hn hperiod hearly (h _ _ ?_ (wave_sends T _))
    simp
    omega
  · exact not_receives_late hlate (h _ _ (by simp) (wave_sends T _))

end Late

end Lib.Serial
