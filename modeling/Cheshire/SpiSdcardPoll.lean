import Cheshire.SpiSdcardRead

/-!
# The bounded polls of the SD card driver

A poll receives one byte at a time, at most as many as its limit, until one is acceptable. The
loop counts down before it looks at the byte, and only the counter is tested afterwards: a byte
that uses up the counter is a timeout, whatever it is.

**Theorem (`poll_iff`).** No byte after the first acceptable one is read, and the poll fails if
and only if none of the bytes within the limit is acceptable, exactly if the first acceptable byte
is not the last one within the limit.
-/

namespace Cheshire.SpiSdcard

open Lib Cmd

/-! ## What a poll reads -/

section Loop

variable {bus : Bus} {α : Type} {again : Byte → Bool}

/-- What fails only with a call does not fail if no call does. -/
theorem ok_of_noFail (hn : NoFail bus) {r : EStateM.Result CInt Spi α} {Q : α → Spi → Prop}
    {E : CInt → Spi → Prop} (h : Ends r Q E) (hE : ∀ e s, E e s → CallFailed bus e) :
    ∃ a s', r = .ok a s' ∧ Q a s' := by
  cases r with
  | ok a s' => exact ⟨a, s', rfl, h⟩
  | error e s' => exact absurd hn (hE e s' h).fails

/-- One byte is received. -/
theorem receive_one (dst : Ptr) (s : Spi) : Ends (xferCsaat bus (some dst) none 1 s)
    (fun _ s' => s'.pos = s.pos + 1 ∧ s'.load dst 0 = bus.wire s.pos)
    (fun e _ => CallFailed bus e) := by
  refine (transaction_rx .card true dst 1 s).mono ?_ fun _ _ h => h.1
  intro _ s' h
  obtain ⟨hmem, hpos, -⟩ := h
  refine ⟨hpos, ?_⟩
  rw [load_congr hmem, load_store s dst _ Nat.one_pos (by decide)]
  rfl

/-- The loop reads `n` bytes. All but the last one are not acceptable, and the last one is unless
it uses up the counter. -/
theorem pollLoop_ok (hn : NoFail bus) (dst : Ptr) {timeout : ℕ} (ht : timeout ≠ 0) (s : Spi) :
    ∃ n s', pollLoop bus dst again timeout s = .ok (timeout - n) s' ∧ 1 ≤ n ∧ n ≤ timeout ∧
      s'.pos = s.pos + n ∧ (∀ j, j + 1 < n → again (bus.wire (s.pos + j)) = true) ∧
      (n < timeout → again (bus.wire (s.pos + (n - 1))) = false) := by
  have hreceive (n : ℕ) (s₁ : Spi) (hpos : s₁.pos = s.pos + n) :
      Ends (xferCsaat bus (some dst) none 1 s₁)
        (fun _ s' => s'.pos = s.pos + (n + 1) ∧ s'.load dst 0 = bus.wire (s.pos + n))
        (fun e _ => CallFailed bus e) := by
    refine (receive_one dst s₁).mono ?_ fun _ _ h => h
    intro _ s' h
    obtain ⟨hpos', hload⟩ := h
    exact ⟨by omega, by rw [hload, hpos]⟩
  obtain ⟨t, s', hres, n, hn', hpos, hskip, hstop⟩ := ok_of_noFail hn
    (pollLoop_rule (I := fun n s' => s'.pos = s.pos + n) hreceive timeout rfl) fun _ _ h => h
  have hle : 1 ≤ n := by
    by_cases h0 : t = 0
    · omega
    · obtain ⟨k, rfl, -⟩ := hstop h0
      omega
  refine ⟨n, s', ?_, hle, by omega, hpos, hskip, fun hlt => ?_⟩
  · rw [hres, show timeout - n = t by omega]
  · obtain ⟨k, rfl, hk⟩ := hstop (by omega)
    exact hk

end Loop

/-! ## The three polls -/

/-- What is polled for: a response, the end of being busy, or a token. -/
inductive PollSite
  | response | busy | token
deriving DecidableEq, Repr

namespace PollSite

def limit : PollSite → ℕ
  | .response => 8
  | .busy => r1bTimeout
  | .token => dataTimeout

/-- The condition of the loop. -/
def again : PollSite → Byte → Bool
  | .response => noResponse
  | .busy => fun b => b = 0
  | .token => fun b => b = 0xFF

def code : PollSite → CInt
  | .response => 0x12
  | .busy => 0x13
  | .token => 0x19

/-- What the driver does at a poll. -/
def run (site : PollSite) (bus : Bus) (dst : Ptr) : Sd Unit :=
  poll bus site.limit dst site.again site.code

theorem limit_pos (site : PollSite) : 0 < site.limit := by cases site <;> decide

theorem code_ne (site : PollSite) : site.code ≠ 0 := by cases site <;> decide

/-- The bytes that are acceptable. -/
def Accepts : PollSite → Byte → Prop
  | .response, b => b.getLsbD 7 = false
  | .busy, b => b ≠ 0
  | .token, b => b ≠ 0xFF

theorem accepts_iff (site : PollSite) (b : Byte) : site.Accepts b ↔ site.again b = false := by
  have hresponse : ∀ b : Byte, b.getLsbD 7 = false ↔ noResponse b = false := by decide +kernel
  cases site with
  | response => exact hresponse b
  | busy => exact (decide_eq_false_iff_not (p := b = 0)).symm
  | token => exact (decide_eq_false_iff_not (p := b = 0xFF)).symm

end PollSite

example (bus : Bus) (rdata : Ptr) :
    restOfResponse bus .r1b rdata = PollSite.busy.run bus (.rdummy, 0) := rfl

/-! ## Main result -/

section Main

variable {bus : Bus} {site : PollSite} {dst : Ptr} {s : Spi}

/-- What a poll from position `p` on is for, with its return value and the state it ends in. -/
structure PollMeets (bus : Bus) (site : PollSite) (p : ℕ) (r : CInt × Spi) : Prop where
  reads : ∀ j, site.Accepts (bus.wire (p + j)) → r.2.pos ≤ p + j + 1
  fails : r.1 = site.code ↔ ∀ j < site.limit, ¬site.Accepts (bus.wire (p + j))

/-- The first acceptable byte is the last one within the limit. -/
def LastMoment (bus : Bus) (site : PollSite) (p : ℕ) : Prop :=
  site.Accepts (bus.wire (p + (site.limit - 1))) ∧
    ∀ j < site.limit - 1, ¬site.Accepts (bus.wire (p + j))

/-- How a poll ends when no call fails. -/
theorem poll_returned (hn : NoFail bus) (site : PollSite) (dst : Ptr) (s : Spi) :
    ∃ n, 1 ≤ n ∧ n ≤ site.limit ∧ (returned (site.run bus dst) s).2.pos = s.pos + n ∧
      (∀ j, j + 1 < n → ¬site.Accepts (bus.wire (s.pos + j))) ∧
      (n < site.limit → site.Accepts (bus.wire (s.pos + (n - 1)))) ∧
      (returned (site.run bus dst) s).1 = if n = site.limit then site.code else 0 := by
  obtain ⟨n, s', hloop, hpos, hle, hn', hskip, hstop⟩ :=
    @pollLoop_ok bus site.again hn dst site.limit site.limit_pos.ne' s
  have hrun : site.run bus dst s =
      (if site.limit - n = 0 then throw site.code else pure () : Sd Unit) s' := bind_ok hloop
  refine ⟨n, hpos, hle, ?_, fun j hj hacc => ?_, fun hlt => ?_, ?_⟩
  · unfold returned
    rw [hrun]
    split_ifs <;> exact hn'
  · rw [PollSite.accepts_iff, hskip j hj] at hacc
    exact absurd hacc.symm Bool.false_ne_true
  · rw [PollSite.accepts_iff]
    exact hstop hlt
  · unfold returned
    rw [hrun]
    by_cases heq : n = site.limit
    · rw [if_pos (by omega), if_pos heq]
      rfl
    · rw [if_neg (by omega), if_neg heq]
      rfl

/-- **Main result.** A poll does what it is for exactly if the first acceptable byte does not
arrive at the last moment. -/
theorem poll_iff (hn : NoFail bus) :
    PollMeets bus site s.pos (returned (site.run bus dst) s) ↔ ¬LastMoment bus site s.pos := by
  obtain ⟨n, hpos, hle, hend, hskip, hstop, hcode⟩ := poll_returned hn site dst s
  have hreads (j : ℕ) (hacc : site.Accepts (bus.wire (s.pos + j))) :
      (returned (site.run bus dst) s).2.pos ≤ s.pos + j + 1 := by
    have hge : n ≤ j + 1 := Nat.not_lt.1 fun hlt => hskip j hlt hacc
    omega
  constructor
  · rintro hmeets ⟨hacc, hnone⟩
    -- the acceptable byte is read, and the counter is used up
    obtain rfl : n = site.limit := by
      by_contra hne
      exact hnone (n - 1) (by omega) (hstop (by omega))
    rw [if_pos rfl] at hcode
    exact hmeets.fails.1 hcode _ (Nat.sub_lt hpos Nat.one_pos) hacc
  · intro hlast
    refine ⟨hreads, ?_⟩
    rw [hcode]
    by_cases heq : n = site.limit
    · subst heq
      rw [if_pos rfl]
      refine iff_of_true rfl fun j hj hacc => hlast ?_
      obtain hlt | rfl : j + 1 < site.limit ∨ j = site.limit - 1 := by omega
      · exact absurd hacc (hskip j hlt)
      · exact ⟨hacc, fun i hi => hskip i (by omega)⟩
    · rw [if_neg heq]
      refine iff_of_false (fun h => site.code_ne h.symm) fun hnone => ?_
      exact hnone (n - 1) (by omega) (hstop (by omega))

end Main

/-- A card that answers at once. -/
theorem poll_iff_zeros :
    PollMeets zeroCard .response onesSpi.pos (returned (PollSite.response.run zeroCard (.rx, 0))
      onesSpi) ↔ ¬LastMoment zeroCard .response onesSpi.pos :=
  poll_iff fun _ => rfl

/-- A card whose response is the eighth byte. -/
def eighthCard : Bus where
  wire i := if i < 7 then 0xFF else 0
  fails _ := none
  rxDepth := 64

/-- The eighth byte is acceptable, and the poll for a response fails. -/
theorem response_at_last_moment :
    (returned (PollSite.response.run eighthCard (.rx, 0)) onesSpi).1 = 0x12 ∧
      ¬PollMeets eighthCard .response onesSpi.pos
        (returned (PollSite.response.run eighthCard (.rx, 0)) onesSpi) := by
  have hcode : (returned (PollSite.response.run eighthCard (.rx, 0)) onesSpi).1 = 0x12 := by
    decide +kernel
  have hacc : PollSite.response.Accepts (eighthCard.wire (onesSpi.pos + 7)) := by
    show (eighthCard.wire 7).getLsbD 7 = false
    decide
  exact ⟨hcode, fun hmeets => hmeets.fails.1 hcode 7 (by decide) hacc⟩

end Cheshire.SpiSdcard
