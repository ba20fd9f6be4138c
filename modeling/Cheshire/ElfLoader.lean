import Cheshire.Lib.Bytes
import Cheshire.Lib.Command

/-!
# Preloading ELF binaries: `elfloader.cpp`

`read_elf` maps a file and records its loadable segments in three globals that persist from file
to file; the testbench then takes them one by one (`get_section`, `read_section`). Addresses in
the file are relative to the start of the mapping, and wrap around as pointers do.

A failing assertion and a signed overflow end the program (`Stop`).
-/

namespace Cheshire.ElfLoader

open Lib

abbrev U64 := BitVec 64

/-- `char`, as a result. -/
abbrev Char8 := BitVec 8

/-! ## Headers -/

/-- Where a field of a header starts, and how many bytes it has. -/
structure Field where
  off : ℕ
  width : ℕ

/-- The types that `load_elf` is instantiated with, as far as it uses them. -/
structure Layout where
  /-- The bits of an offset or a size. -/
  bits : ℕ
  sizeofEhdr : ℕ
  eEntry : Field
  ePhoff : Field
  eShoff : Field
  ePhnum : Field
  eShnum : Field
  eShstrndx : Field
  sizeofPhdr : ℕ
  pType : Field
  pOffset : Field
  pPaddr : Field
  pFilesz : Field
  pMemsz : Field
  sizeofShdr : ℕ
  shName : Field
  shOffset : Field
  shSize : Field

def elf32 : Layout where
  bits := 32
  sizeofEhdr := 52
  eEntry := ⟨24, 4⟩
  ePhoff := ⟨28, 4⟩
  eShoff := ⟨32, 4⟩
  ePhnum := ⟨44, 2⟩
  eShnum := ⟨48, 2⟩
  eShstrndx := ⟨50, 2⟩
  sizeofPhdr := 32
  pType := ⟨0, 4⟩
  pOffset := ⟨4, 4⟩
  pPaddr := ⟨12, 4⟩
  pFilesz := ⟨16, 4⟩
  pMemsz := ⟨20, 4⟩
  sizeofShdr := 40
  shName := ⟨0, 4⟩
  shOffset := ⟨16, 4⟩
  shSize := ⟨20, 4⟩

def elf64 : Layout where
  bits := 64
  sizeofEhdr := 64
  eEntry := ⟨24, 8⟩
  ePhoff := ⟨32, 8⟩
  eShoff := ⟨40, 8⟩
  ePhnum := ⟨56, 2⟩
  eShnum := ⟨60, 2⟩
  eShstrndx := ⟨62, 2⟩
  sizeofPhdr := 56
  pType := ⟨0, 4⟩
  pOffset := ⟨8, 8⟩
  pPaddr := ⟨24, 8⟩
  pFilesz := ⟨32, 8⟩
  pMemsz := ⟨40, 8⟩
  sizeofShdr := 64
  shName := ⟨0, 4⟩
  shOffset := ⟨24, 8⟩
  shSize := ⟨32, 8⟩

/-- The sum of an offset and a size. -/
def Layout.add (T : Layout) (x y : U64) : U64 := ((x + y).setWidth T.bits).setWidth 64

/-- A file, and whether it can be opened, looked at, and mapped. -/
structure File where
  opens : Bool
  stats : Bool
  maps : Bool
  size : U64
  /-- Past the size of the file, what follows its mapping. -/
  bytes : Mem

namespace File

variable (f : File)

/-- The value of a field of the header at `a`. -/
def field (a : U64) (x : Field) : U64 :=
  BitVec.ofNat 64 (le x.width fun i => f.bytes (a + BitVec.ofNat 64 (x.off + i)))

def slice (off : U64) (n : ℕ) : List Byte :=
  (List.range n).map fun i => f.bytes (off + BitVec.ofNat 64 i)

end File

/-! ## The loader -/

/-- The globals, with `section_index` as a number below `2 ^ 31`. -/
structure Globals where
  sections : List (U64 × U64)
  mems : U64 → Option (List Byte)
  entry : U64
  sectionIndex : ℕ

/-- What is printed. -/
inductive Msg
  | cannotOpen
  | cannotStat
  | tooSmall (size : U64)
  | cannotMap
  | mapped
  | noSignature
  | programHeaders (size stop : U64)
  | entrypoint (entry : U64)
  | zeroBytes (paddr n : U64)
  | sectionHeaders (size stop : U64)
  | stringIndex (index max : U64)
  | nameTable (size stop : U64)
  | stringTable (off : U64)
  | symbolTable (off : U64)
  | noSection (address : U64)
  | bufferFull (len : U64)
deriving DecidableEq

/-- The globals, which bytes of the file have been read, and what has been printed. -/
structure Loader where
  globals : Globals
  reads : List U64
  printed : List Msg

def Loader.init : Loader := ⟨⟨[], fun _ => none, 0, 0⟩, [], []⟩

inductive Stop
  /-- The range of program header `i`. -/
  | assertion (i : ℕ)
  | overflow
  /-- A caller goes on after all the calls it was given. -/
  | running
deriving DecidableEq, Repr

abbrev M := Cmd Stop Loader

def globals : M Globals := fun s => .ok s.globals s

def print (m : Msg) : M Unit := modify fun s => { s with printed := s.printed ++ [m] }

/-- Read the field of the header at `a`. -/
def get (f : File) (a : U64) (x : Field) : M U64 := do
  modify fun s => { s with reads := s.reads ++
    (List.range x.width).map fun i => a + BitVec.ofNat 64 (x.off + i) }
  pure (f.field a x)

def getByte (f : File) (a : U64) : M Byte := do
  modify fun s => { s with reads := s.reads ++ [a] }
  pure (f.bytes a)

/-- Compare the bytes from `a` on, up to the first difference. -/
def compare (f : File) (a : U64) : List Byte → M Bool
  | [] => pure true
  | b :: bs => do
    let c ← getByte f a
    if c = b then compare f (a + 1) bs else pure false

/-- The bytes `buf[i]`, `buf[i + 1]`, ... for an `int i`. -/
def pushBack (f : File) (buf : U64) : ℕ → ℕ → M (List Byte)
  | 0, _ => pure []
  | n + 1, i => do
    let b ← getByte f (buf + BitVec.ofNat 64 i)
    if i + 1 = 2 ^ 31 then throw .overflow
    else do
      let bs ← pushBack f buf n (i + 1)
      pure (b :: bs)

/-- `std::map::insert`: what is at an address stays there. -/
def insert (mems : U64 → Option (List Byte)) (address : U64) (mem : List Byte) :
    U64 → Option (List Byte) :=
  if (mems address).isSome then mems else Function.update mems address (some mem)

def write (f : File) (address len buf : U64) : M Unit := do
  let mem ← pushBack f buf len.toNat 0
  modify fun s => { s with globals.mems := insert s.globals.mems address mem }

/-- The next section, if there is one. -/
def getSection : M (Option (U64 × U64)) := do
  let g ← globals
  match g.sections[g.sectionIndex]? with
  | some sec =>
    if g.sectionIndex + 1 = 2 ^ 31 then throw .overflow
    else do
      modify fun s => { s with globals.sectionIndex := g.sectionIndex + 1 }
      pure (some sec)
  | none => pure none

/-- The loop of `read_section`, from a position in the buffer on, with `len_tmp` bytes left. -/
def copyArray : List Byte → ℕ → U64 → List Byte → Char8 × List Byte
  | [], _, _, buf => (0, buf)
  | datum :: data, pos, lenTmp, buf =>
    if lenTmp = 0 then (-1, buf) else copyArray data (pos + 1) (lenTmp - 1) (buf.set pos datum)

/-- The result and the buffer, which has `len` bytes. -/
def readSection (address : U64) (buffer : List Byte) (len : U64) : M (Char8 × List Byte) := do
  let g ← globals
  match g.mems address with
  | none => do
    print (.noSection address)
    pure (-1, buffer)
  | some mem => do
    if (copyArray mem 0 len buffer).1 = 0 then pure (copyArray mem 0 len buffer)
    else do
      print (.bufferFull len)
      pure (copyArray mem 0 len buffer)

/-! ## `load_elf` -/

section Load

variable (T : Layout) (f : File)

/-- The bytes of a segment in the file: `ph` is the address of program header `i`. -/
def loadBytes (ph : U64) (i : ℕ) (filesz : U64) : M Unit :=
  if filesz = 0 then pure ()
  else do
    let offset ← get f ph T.pOffset
    if f.size < T.add offset filesz then throw (.assertion i)
    else do
      let paddr ← get f ph T.pPaddr
      let memsz ← get f ph T.pMemsz
      modify fun s => { s with globals.sections := s.globals.sections ++ [(paddr, memsz)] }
      write f paddr filesz offset

def warnZeros (ph memsz filesz : U64) : M Unit :=
  if filesz < memsz then do
    let paddr ← get f ph T.pPaddr
    print (.zeroBytes paddr (memsz - filesz))
  else pure ()

/-- Program header `i`, with `PT_LOAD` being 1. -/
def loadSegment (phoff : U64) (i : ℕ) : M Unit := do
  let ph := phoff + BitVec.ofNat 64 (i * T.sizeofPhdr)
  let type ← get f ph T.pType
  if type = 1 then do
    let memsz ← get f ph T.pMemsz
    if memsz = 0 then pure ()
    else do
      let filesz ← get f ph T.pFilesz
      loadBytes T f ph i filesz
      warnZeros T f ph memsz filesz
  else pure ()

/-- `".strtab"`. -/
def strtab : List Byte := [0x2E, 0x73, 0x74, 0x72, 0x74, 0x61, 0x62, 0]

/-- `".symtab"`. -/
def symtab : List Byte := [0x2E, 0x73, 0x79, 0x6D, 0x74, 0x61, 0x62, 0]

/-- Section header `i`: `names` is the address of the header of the name table, `shstrtab` that of
the table. -/
def loadName (shoff names shstrtab : U64) (i : ℕ) : M Unit := do
  let sh := shoff + BitVec.ofNat 64 (i * T.sizeofShdr)
  -- `max_len`, which is not used
  let _ ← get f names T.shSize
  let name ← get f sh T.shName
  let isStrtab ← compare f (shstrtab + name) strtab
  if isStrtab then do
    let off ← get f sh T.shOffset
    print (.stringTable off)
  else do
    let isSymtab ← compare f (shstrtab + name) symtab
    if isSymtab then do
      let off ← get f sh T.shOffset
      print (.symbolTable off)
    else pure ()

/-- The section headers. -/
def loadNames : M Unit := do
  let shoff ← get f 0 T.eShoff
  let shnum ← get f 0 T.eShnum
  if f.size < shoff + shnum * BitVec.ofNat 64 T.sizeofShdr then
    print (.sectionHeaders f.size (shoff + shnum * BitVec.ofNat 64 T.sizeofShdr))
  else do
    let shstrndx ← get f 0 T.eShstrndx
    if shnum ≤ shstrndx then print (.stringIndex shstrndx shnum)
    else do
      let names := shoff + shstrndx * BitVec.ofNat 64 T.sizeofShdr
      let offset ← get f names T.shOffset
      let size ← get f names T.shSize
      if f.size < T.add offset size then print (.nameTable f.size (T.add offset size))
      else Cmd.forStep shnum.toNat 1 (loadName T f shoff names offset) shnum.toNat 0

def loadElf : M Unit := do
  let phoff ← get f 0 T.ePhoff
  let phnum ← get f 0 T.ePhnum
  if f.size < phoff + phnum * BitVec.ofNat 64 T.sizeofPhdr then
    print (.programHeaders f.size (phoff + phnum * BitVec.ofNat 64 T.sizeofPhdr))
  else do
    let entry ← get f 0 T.eEntry
    modify fun s => { s with globals.entry := entry }
    print (.entrypoint entry)
    Cmd.forStep phnum.toNat 1 (loadSegment T f phoff) phnum.toNat 0
    loadNames T f

end Load

/-! ## `read_elf` -/

/-- `IS_ELF32` for class 1, `IS_ELF64` for class 2. -/
def isElf (f : File) (cls : Byte) : M Bool := compare f 0 [0x7F, 0x45, 0x4C, 0x46, cls]

/-- The mapped file. -/
def readMapped (f : File) : M Char8 := do
  print .mapped
  let is32 ← isElf f 1
  if is32 then do
    loadElf elf32 f
    pure 0
  else do
    let is64 ← isElf f 2
    if is64 then do
      loadElf elf64 f
      pure 0
    else do
      print .noSignature
      pure (-1)

def readElf (f : File) : M Char8 :=
  if !f.opens then do
    print .cannotOpen
    pure (-1)
  else if !f.stats then do
    print .cannotStat
    pure (-1)
  else if f.size < BitVec.ofNat 64 elf64.sizeofEhdr then do
    print (.tooSmall f.size)
    pure (-1)
  else if !f.maps then do
    print .cannotMap
    pure (-1)
  else readMapped f

/-! ## The testbench -/

/-- A section as the testbench gets it. -/
structure Obtained where
  address : U64
  len : U64
  result : Char8
  buffer : List Byte
deriving DecidableEq

/-- Calls `get_section` until it returns 0, and reads each section into a zeroed buffer. -/
def preload : ℕ → M (List Obtained)
  | 0 => throw .running
  | fuel + 1 => do
    let sec ← getSection
    match sec with
    | none => pure []
    | some (address, len) => do
      let r ← readSection address (List.replicate len.toNat 0) len
      let rest ← preload fuel
      pure (⟨address, len, r.1, r.2⟩ :: rest)

/-- One file after the other. -/
def session (fuel : ℕ) : List File → M (List (List Obtained))
  | [] => pure []
  | f :: fs => do
    let _ ← readElf f
    let sections ← preload fuel
    let rest ← session fuel fs
    pure (sections :: rest)

end Cheshire.ElfLoader
