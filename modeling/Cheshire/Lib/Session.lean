import Cheshire.Lib.Transition
import Mathlib.Data.List.Infix

/-!
# Two parties that follow a script

Two parties are connected by two channels that lose nothing and keep the order, and take their
steps in any order. A script is what one of them sends and receives in a session; the other one
follows the dual script (`Party.Follows`).

**Theorem (`Session.run_synced`).** If each party on its own follows its side of the script, then
in any run each has done a part of the script, and the messages in between are in the channels.
Every step takes one party one message further. So the parties never get stuck before the end of
the script, and reach it after two steps for each message.
-/

namespace Lib

variable {σ τ β : Type*}

/-- What a party does in each state: send a message, or wait for one. -/
structure Party (σ β : Type*) where
  send : σ → Option (β × σ)
  recv : σ → β → Option σ

/-- A message of a script, which is sent or received. -/
inductive Act (β : Type*)
  | out (b : β)
  | inp (b : β)

/-- The same message for the other party. -/
def Act.dual : Act β → Act β
  | .out b => .inp b
  | .inp b => .out b

theorem Act.dual_dual (a : Act β) : a.dual.dual = a := by
  cases a <;> rfl

theorem map_dual_dual (w : List (Act β)) : (w.map Act.dual).map Act.dual = w := by
  rw [List.map_map]
  exact (List.map_congr_left fun a _ => Act.dual_dual a).trans (List.map_id w)

/-! ## One party -/

namespace Party

variable (P : Party σ β)

/-- From `p` the party sends and receives what the script says, and is in `p'` after it. -/
def Follows : σ → List (Act β) → σ → Prop
  | p, [], p' => p = p'
  | p, .out b :: w, p' =>
    ∃ p₁, P.send p = some (b, p₁) ∧ (∀ c, P.recv p c = none) ∧ Follows p₁ w p'
  | p, .inp b :: w, p' => ∃ p₁, P.send p = none ∧ P.recv p b = some p₁ ∧ Follows p₁ w p'

variable {P} {p p₁ p' : σ} {b : β} {w w' : List (Act β)}

theorem Follows.append (h : P.Follows p w p₁) (h' : P.Follows p₁ w' p') :
    P.Follows p (w ++ w') p' := by
  induction w generalizing p with
  | nil =>
    obtain rfl : p = p₁ := h
    exact h'
  | cons a w ih =>
    cases a with
    | out b =>
      obtain ⟨p₂, hsend, hrecv, h⟩ := h
      exact ⟨p₂, hsend, hrecv, ih h⟩
    | inp b =>
      obtain ⟨p₂, hsend, hrecv, h⟩ := h
      exact ⟨p₂, hsend, hrecv, ih h⟩

/-- A party that is through has nothing left to follow. -/
theorem Follows.eq_nil (h : P.Follows p w p') (hsend : P.send p = none)
    (hrecv : ∀ b, P.recv p b = none) : w = [] := by
  cases w with
  | nil => rfl
  | cons a w =>
    cases a with
    | out b =>
      obtain ⟨_, h, -⟩ := h
      exact absurd (hsend.symm.trans h) (Option.some_ne_none _).symm
    | inp b =>
      obtain ⟨_, -, h, -⟩ := h
      exact absurd ((hrecv b).symm.trans h) (Option.some_ne_none _).symm

/-- A property that no message of the party takes away holds at the end of the script. -/
theorem Follows.preserves {I : σ → Prop} (h : P.Follows p w p') (hp : I p)
    (hsend : ∀ p b p', I p → P.send p = some (b, p') → I p')
    (hrecv : ∀ p b p', I p → P.recv p b = some p' → I p') : I p' := by
  induction w generalizing p with
  | nil =>
    obtain rfl : p = p' := h
    exact hp
  | cons a w ih =>
    cases a with
    | out b =>
      obtain ⟨p₁, h₁, -, h⟩ := h
      exact ih h (hsend _ _ _ hp h₁)
    | inp b =>
      obtain ⟨p₁, -, h₁, h⟩ := h
      exact ih h (hrecv _ _ _ hp h₁)

end Party

/-! ## Two parties -/

/-- The states of the parties, and the messages on the way from and to the left one. -/
structure Session (σ τ β : Type*) where
  left : σ
  right : τ
  out : List β
  back : List β

namespace Session

def swap (s : Session σ τ β) : Session τ σ β := ⟨s.right, s.left, s.back, s.out⟩

/-- A step of the left party. -/
inductive Move (P : Party σ β) : Session σ τ β → Session σ τ β → Prop
  | send {p p' : σ} {q : τ} {b : β} {o i : List β} :
    P.send p = some (b, p') → Move P ⟨p, q, o, i⟩ ⟨p', q, o ++ [b], i⟩
  | recv {p p' : σ} {q : τ} {b : β} {o i : List β} :
    P.recv p b = some p' → Move P ⟨p, q, o, b :: i⟩ ⟨p', q, o, i⟩

/-- The parties take steps in any order. -/
def machine (P : Party σ β) (Q : Party τ β) (p : σ) (q : τ) : Machine (Session σ τ β) where
  start s := s = ⟨p, q, [], []⟩
  step s s' := Move P s s' ∨ Move Q s.swap s'.swap

variable {P : Party σ β} {Q : Party τ β} {p pe : σ} {q qe : τ} {w wp wq : List (Act β)}
  {s s' : Session σ τ β}

/-- What is left of the script for either party, and what is in the channels. -/
structure Synced (P : Party σ β) (Q : Party τ β) (w : List (Act β)) (pe : σ) (qe : τ)
    (wp wq : List (Act β)) (s : Session σ τ β) : Prop where
  left_suffix : wp <:+ w
  right_suffix : wq <:+ w
  left : P.Follows s.left wp pe
  right : Q.Follows s.right (wq.map Act.dual) qe
  gap : (wq = s.out.map .out ++ wp ∧ s.back = []) ∨ (wp = s.back.map .inp ++ wq ∧ s.out = [])

theorem Synced.swap (h : Synced P Q w pe qe wp wq s) :
    Synced Q P (w.map Act.dual) qe pe (wq.map Act.dual) (wp.map Act.dual) s.swap := by
  refine ⟨h.right_suffix.map _, h.left_suffix.map _, h.right, ?_, ?_⟩
  · rw [map_dual_dual]
    exact h.left
  · rcases h.gap with ⟨hgap, hback⟩ | ⟨hgap, hout⟩
    · refine Or.inr ⟨?_, hback⟩
      rw [hgap, List.map_append, List.map_map]
      rfl
    · refine Or.inl ⟨?_, hout⟩
      rw [hgap, List.map_append, List.map_map]
      rfl

/-- A step takes the left party one message further. -/
theorem Synced.move (h : Synced P Q w pe qe wp wq s) (hpe : P.send pe = none)
    (hmove : Move P s s') :
    ∃ wp', Synced P Q w pe qe wp' wq s' ∧ wp.length = wp'.length + 1 := by
  obtain ⟨hwp, hwq, hleft, hright, hgap⟩ := h
  cases hmove with
  | @send p p' q b o i hsend =>
    cases wp with
    | nil =>
      obtain rfl : p = pe := hleft
      exact absurd (hpe.symm.trans hsend) (Option.some_ne_none _).symm
    | cons a wp =>
      cases a with
      | inp c =>
        obtain ⟨_, hnone, -⟩ := hleft
        exact absurd (hnone.symm.trans hsend) (Option.some_ne_none _).symm
      | out c =>
        obtain ⟨p₁, hsend', -, hfollows⟩ := hleft
        obtain ⟨rfl, rfl⟩ : c = b ∧ p₁ = p' := by
          have := hsend'.symm.trans hsend
          simpa using this
        refine ⟨wp, ⟨(List.suffix_cons _ _).trans hwp, hwq, hfollows, hright, Or.inl ?_⟩, rfl⟩
        rcases hgap with ⟨hgap, hback⟩ | ⟨hgap, hout⟩
        · refine ⟨?_, hback⟩
          rw [hgap, List.map_append, List.append_assoc]
          rfl
        · cases i with
          | nil =>
            refine ⟨?_, rfl⟩
            rw [show o = [] from hout]
            exact hgap.symm
          | cons c i => exact absurd (List.cons.inj hgap).1 fun h => nomatch h
  | @recv p p' q b o i hrecv =>
    rcases hgap with ⟨-, hback⟩ | ⟨hgap, hout⟩
    · exact absurd hback (List.cons_ne_nil _ _)
    · cases wp with
      | nil => exact absurd hgap (List.cons_ne_nil _ _).symm
      | cons a wp =>
        have hcons : a :: wp = .inp b :: (i.map .inp ++ wq) := hgap
        obtain ⟨rfl, hrest⟩ := List.cons.inj hcons
        obtain ⟨p₁, -, hrecv', hfollows⟩ := hleft
        obtain rfl : p₁ = p' := Option.some.inj (hrecv'.symm.trans hrecv)
        exact ⟨wp, ⟨(List.suffix_cons _ _).trans hwp, hwq, hfollows, hright, Or.inr ⟨hrest, hout⟩⟩,
          rfl⟩

/-- If nothing is on the way to the left party, one of the parties can take a step. -/
theorem Synced.progress_out (h : Synced P Q w pe qe wp wq s) (hgap : wq = s.out.map .out ++ wp)
    (hne : wq ≠ []) : ∃ s', Move P s s' ∨ Move Q s.swap s'.swap := by
  obtain ⟨p, q, o, i⟩ := s
  have hright := h.right
  cases o with
  | cons b o =>
    rw [hgap] at hright
    obtain ⟨q', -, hrecv, -⟩ := hright
    exact ⟨⟨p, q', o, i⟩, Or.inr (.recv hrecv)⟩
  | nil =>
    cases wp with
    | nil => exact absurd hgap hne
    | cons a wp =>
      cases a with
      | out b =>
        obtain ⟨p', hsend, -⟩ := h.left
        exact ⟨⟨p', q, [b], i⟩, Or.inl (.send hsend)⟩
      | inp b =>
        rw [hgap] at hright
        obtain ⟨q', hsend, -⟩ := hright
        exact ⟨⟨p, q', [], i ++ [b]⟩, Or.inr (.send hsend)⟩

/-- Before the end of the script, one of the parties can take a step. -/
theorem Synced.progress (h : Synced P Q w pe qe wp wq s) (hne : wp ≠ [] ∨ wq ≠ []) :
    ∃ s', (machine P Q p q).step s s' := by
  rcases h.gap with ⟨hgap, -⟩ | ⟨hgap, -⟩
  · refine h.progress_out hgap fun hnil => hne.elim (fun hwp => hwp ?_) fun hwq => hwq hnil
    rw [hnil] at hgap
    exact (List.append_eq_nil_iff.1 hgap.symm).2
  · have hswap : wp.map Act.dual = s.swap.out.map .out ++ wq.map Act.dual := by
      rw [hgap, List.map_append, List.map_map]
      rfl
    obtain ⟨s', hstep⟩ := h.swap.progress_out hswap fun hnil => by
      rw [List.map_eq_nil_iff] at hnil
      rw [hnil] at hgap
      exact hne.elim (fun hwp => hwp hnil) fun hwq =>
        hwq (List.append_eq_nil_iff.1 hgap.symm).2
    exact ⟨s'.swap, hstep.symm⟩

theorem Synced.eq_end (h : Synced P Q w pe qe [] [] s) : s = ⟨pe, qe, [], []⟩ := by
  obtain ⟨p, q, o, i⟩ := s
  obtain rfl : p = pe := h.left
  obtain rfl : q = qe := h.right
  rcases h.gap with ⟨hgap, hback⟩ | ⟨hgap, hout⟩
  · obtain rfl : i = [] := hback
    obtain rfl : o = [] := by simpa using hgap
    rfl
  · obtain rfl : o = [] := hout
    obtain rfl : i = [] := by simpa using hgap
    rfl

/-- If the last message of the script goes to the left party, that one is the last to be through. -/
theorem Synced.right_nil (h : Synced P Q w pe qe [] wq s) (hlast : ∀ b, ¬[.out b] <:+ w) :
    wq = [] := by
  rcases h.gap with ⟨hgap, -⟩ | ⟨hgap, -⟩
  · rcases List.eq_nil_or_concat s.out with hout | ⟨u, b, hout⟩
    · rw [hgap, hout]
      rfl
    · refine absurd (List.IsSuffix.trans ⟨u.map .out, ?_⟩ h.right_suffix) (hlast b)
      rw [hgap, hout, List.append_nil, List.concat_eq_append, List.map_append]
      rfl
  · exact (List.append_eq_nil_iff.1 hgap.symm).2

/-- **Both parties stay on the script**, and every step counts. -/
theorem run_synced (hp : P.Follows p w pe) (hq : Q.Follows q (w.map Act.dual) qe)
    (hpe : P.send pe = none) (hqe : Q.send qe = none) {n : ℕ}
    (hrun : (machine P Q p q).Run n s) :
    ∃ wp wq, Synced P Q w pe qe wp wq s ∧ n + wp.length + wq.length = 2 * w.length := by
  induction hrun with
  | start h₀ =>
    rw [show _ = _ from h₀]
    exact ⟨w, w, ⟨List.suffix_refl w, List.suffix_refl w, hp, hq, Or.inl ⟨rfl, rfl⟩⟩, by omega⟩
  | step _ hstep ih =>
    obtain ⟨wp, wq, hsync, hn⟩ := ih
    rcases hstep with hmove | hmove
    · obtain ⟨wp', hsync', hlen⟩ := hsync.move hpe hmove
      exact ⟨wp', wq, hsync', by omega⟩
    · obtain ⟨wq', hsync', hlen⟩ := hsync.swap.move hqe hmove
      have hback := hsync'.swap
      rw [map_dual_dual, map_dual_dual] at hback
      rw [List.length_map] at hlen
      refine ⟨wp, wq'.map Act.dual, hback, ?_⟩
      rw [List.length_map]
      omega

theorem Move.right_eq (h : Move P s s') : s'.right = s.right := by
  cases h <;> rfl

theorem Move.left {I : σ → Prop} (h : Move P s s') (hs : I s.left)
    (hsend : ∀ p b p', I p → P.send p = some (b, p') → I p')
    (hrecv : ∀ p b p', I p → P.recv p b = some p' → I p') : I s'.left := by
  cases h with
  | send h => exact hsend _ _ _ hs h
  | recv h => exact hrecv _ _ _ hs h

/-- What the left party preserves by itself holds in every session. -/
theorem left_invariant {I : σ → Prop} (hp : I p)
    (hsend : ∀ p b p', I p → P.send p = some (b, p') → I p')
    (hrecv : ∀ p b p', I p → P.recv p b = some p' → I p') :
    (machine P Q p q).Invariant fun s => I s.left := by
  constructor
  · intro s hs
    rw [show s = _ from hs]
    exact hp
  · intro s s' hs hstep
    rcases hstep with hmove | hmove
    · exact hmove.left hs hsend hrecv
    · have hleft : s'.left = s.left := hmove.right_eq
      rw [hleft]
      exact hs

end Session

end Lib
