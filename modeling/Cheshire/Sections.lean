import Cheshire.SlinkPreload
import Mathlib.Data.List.GetD

/-!
# Sections in the memory of the target

Where a section lies in the 64-bit address space, and what a preload should leave there: the
memory with the bytes of all sections stored into it (`loaded`).

**Theorem (`loaded_of_has`).** If the sections are apart, every section has its bytes there; and
no other byte changes (`loaded_frame`).
-/

namespace Cheshire.SlinkPreload

open Lib

namespace Section

variable (s t : Section)

/-- The address as a 64-bit number. -/
def base : BitVec 64 := BitVec.ofNat 64 s.secAddr

/-- How far the address `x` is behind the start. -/
def offset (x : BitVec 64) : ℕ := (x - s.base).toNat

def Has (x : BitVec 64) : Prop := s.offset x < s.secLen

instance (x : BitVec 64) : Decidable (s.Has x) := inferInstanceAs (Decidable (_ < _))

/-- `bf[i]`: items outside the array read as 0. -/
def byteAt (i : ℕ) : Byte := s.bf.getD i 0

def store (m : Mem) : Mem := m.write s.base s.secLen s.byteAt

/-- No address is in both sections. -/
def Apart : Prop := ∀ x, s.Has x → ¬t.Has x

variable {s t} {m : Mem} {x : BitVec 64}

theorem Apart.symm (h : s.Apart t) : t.Apart s := fun x ht hs => h x hs ht

theorem offset_eq (s : Section) (x : BitVec 64) :
    s.offset x = (2 ^ 64 - s.base.toNat + x.toNat) % 2 ^ 64 := BitVec.toNat_sub ..

/-- A section that ends before another one starts. -/
theorem apart_of_le (h : s.secEnd ≤ t.secAddr) (ht : t.secEnd ≤ 2 ^ 64) : s.Apart t := by
  intro x hs ht'
  have hx := x.isLt
  unfold Has at hs ht'
  rw [offset_eq, base, BitVec.toNat_ofNat] at hs ht'
  unfold secEnd at h ht
  omega

theorem store_of_has (h : s.Has x) : s.store m x = s.byteAt (s.offset x) := if_pos h

theorem store_frame (h : ¬s.Has x) : s.store m x = m x := if_neg h

theorem byteAt_of_le {i : ℕ} (h : s.secLen ≤ i) : s.byteAt i = 0 :=
  List.getD_eq_default _ _ h

end Section

open Section

/-- The memory with the bytes of each section at its address. -/
def loaded (secs : List Section) (m : Mem) : Mem := secs.foldl (fun m s => s.store m) m

theorem loaded_append (pre post : List Section) (m : Mem) :
    loaded (pre ++ post) m = loaded post (loaded pre m) := List.foldl_append

theorem loaded_frame {secs : List Section} {x : BitVec 64} (h : ∀ s ∈ secs, ¬s.Has x) (m : Mem) :
    loaded secs m x = m x :=
  List.foldlRecOn (motive := fun m' : Mem => m' x = m x) secs _ rfl fun _ hm s hs =>
    (store_frame (h s hs)).trans hm

/-- A section of the list is apart from those that follow it. -/
theorem apart_post {pre post : List Section} {s : Section}
    (h : (pre ++ s :: post).Pairwise Apart) : ∀ t ∈ post, s.Apart t :=
  (List.pairwise_cons.1 (List.pairwise_append.1 h).2.1).1

/-- The bytes of each section are at its address. -/
theorem loaded_of_has {secs : List Section} (hapart : secs.Pairwise Apart) {s : Section}
    (hs : s ∈ secs) {x : BitVec 64} (hx : s.Has x) (m : Mem) :
    loaded secs m x = s.byteAt (s.offset x) := by
  obtain ⟨pre, post, rfl⟩ := List.append_of_mem hs
  rw [loaded_append]
  have hpost : ∀ t ∈ post, ¬t.Has x := fun t ht => apart_post hapart t ht x hx
  exact (loaded_frame hpost _).trans (store_of_has hx)

end Cheshire.SlinkPreload
