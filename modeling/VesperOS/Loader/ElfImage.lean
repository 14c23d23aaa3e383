import VesperOS.Memory.Paging

/-! # ELF32 images and the user loader

`elf.c`. An image is the byte buffer that a loader is given, together with the
bytes that a read outside of it would see; all offsets are 32-bit and wrap. The
user loader writes to frames that it has just taken from the allocator, so its
image does not change. It logs every range of the image it reads. A copy that
would run past the end of its frame has left the memory the loader owns, and the
model stops there.
-/
namespace VesperOS.ElfImage
open ByteMemory Paging

/-- The buffer `data` with its `len` bytes, and whatever surrounds it. -/
structure Image where
  bytes : List UInt8
  beyond : ℕ → UInt8
  len_lt : bytes.length < 2^32

def Image.len (img : Image) : ℕ := img.bytes.length

/-- The byte at `data + off`. -/
def Image.view (img : Image) : Mem := fun off =>
  if off % 2^32 < img.len then img.bytes.getD (off % 2^32) 0 else img.beyond (off % 2^32)

/-! ## Headers -/

/-- `sizeof(elf32_ehdr_t)` and `sizeof(elf32_phdr_t)`. -/
def ehdrSize : ℕ := 52
def phdrSize : ℕ := 32

def Image.eType (img : Image) : ℕ := read16 img.view 16
def Image.eMachine (img : Image) : ℕ := read16 img.view 18
def Image.eEntry (img : Image) : ℕ := read32 img.view 24
def Image.ePhoff (img : Image) : ℕ := read32 img.view 28
def Image.ePhentsize (img : Image) : ℕ := read16 img.view 42
def Image.ePhnum (img : Image) : ℕ := read16 img.view 44

/-- The fields of `elf32_phdr_t` that the loaders read. -/
structure Phdr where
  type : ℕ
  offset : ℕ
  vaddr : ℕ
  filesz : ℕ
  memsz : ℕ
  deriving DecidableEq

/-- Offset of program header `i`: the loops step by `e_phentsize`. -/
def Image.phdrOff (img : Image) (i : ℕ) : ℕ := (img.ePhoff+i*img.ePhentsize) % 2^32

def Image.phdr (img : Image) (i : ℕ) : Phdr where
  type := read32 img.view (img.phdrOff i)
  offset := read32 img.view (img.phdrOff i+4)
  vaddr := read32 img.view (img.phdrOff i+8)
  filesz := read32 img.view (img.phdrOff i+16)
  memsz := read32 img.view (img.phdrOff i+20)

/-- The validation that both loaders make before they look at a program header;
the bound on the header table is computed in 32 bits. -/
def Image.headerOk (img : Image) : Bool :=
  img.view 0 == 0x7F && img.view 1 == 0x45 && img.view 2 == 0x4C && img.view 3 == 0x46 &&
  img.view 4 == 1 && img.view 5 == 1 && img.eType == 2 && img.eMachine == 3 &&
  img.ePhoff != 0 && img.ePhnum != 0 && (img.ePhoff+img.ePhnum*phdrSize) % 2^32 ≤ img.len

/-- `ph->p_offset + ph->p_filesz > len`. -/
def Phdr.outside (ph : Phdr) (len : ℕ) : Bool := len < (ph.offset+ph.filesz) % 2^32

/-- A range `(offset, length)` of the image that was read. -/
abbrev Range := ℕ × ℕ

/-! ## `elf_load_user` -/

/-- Memory, allocator and the reads so far. -/
structure UserLoad where
  mach : Machine
  reads : List Range

/-- How a step of the user loader ends: go on, `return 0`, or a copy that leaves
its frame. -/
inductive LoadStep where
  | next (s : UserLoad)
  | fail (s : UserLoad)
  | overrun (s : UserLoad)

/-- The page-aligned range of a segment, in 32-bit arithmetic. -/
def Phdr.pageStart (ph : Phdr) : ℕ := pageBase ph.vaddr
def Phdr.pageEnd (ph : Phdr) : ℕ := pageBase ((ph.vaddr+ph.memsz+0xFFF) % 2^32)
def Phdr.nPages (ph : Phdr) : ℕ := ((ph.pageEnd+(2^32-ph.pageStart)) % 2^32)/4096
def Phdr.pages (ph : Phdr) : List ℕ := pagesFrom ph.pageStart ph.nPages

/-- The part of a page that comes from the file: destination offset in the page,
source offset in the image and length. -/
def Phdr.copyRange (ph : Phdr) (virtPage : ℕ) : Option (ℕ × ℕ × ℕ) :=
  let fileStart := ph.vaddr
  let fileEnd := (ph.vaddr+ph.filesz) % 2^32
  let pgEnd := (virtPage+4096) % 2^32
  if fileEnd ≤ virtPage ∨ pgEnd ≤ fileStart then none
  else
    let copyStart := if fileStart < virtPage then virtPage else fileStart
    let copyEnd := if pgEnd < fileEnd then pgEnd else fileEnd
    some ((copyStart+(2^32-virtPage)) % 2^32,
      (ph.offset+(copyStart+(2^32-ph.vaddr)) % 2^32) % 2^32,
      (copyEnd+(2^32-copyStart)) % 2^32)

/-- Zero one page of a segment and copy its part of the file. -/
def fillPage (img : Image) (ph : Phdr) (pd virtPage : ℕ) (s : UserLoad) : LoadStep :=
  let phys := physOfVirt s.mach.mem pd virtPage
  if phys = 0 then .fail s
  else
    let m := memset s.mach.mem phys 0 4096
    match ph.copyRange virtPage with
    | none => .next { s with mach := { s.mach with mem := m } }
    | some (dstOff,srcOff,copyLen) =>
      if 4096 < dstOff+copyLen then
        .overrun ⟨{ s.mach with mem := m },(srcOff,copyLen) :: s.reads⟩
      else
        .next ⟨{ s.mach with mem := memcpy m (phys+dstOff) (fun k => img.view (srcOff+k)) copyLen },
          (srcOff,copyLen) :: s.reads⟩

def fillPages (img : Image) (ph : Phdr) (pd : ℕ) : List ℕ → UserLoad → LoadStep
  | [], s => .next s
  | v :: rest, s =>
    match fillPage img ph pd v s with
    | .next s => fillPages img ph pd rest s
    | r => r

/-- One iteration of the segment loop of `elf_load_user`. -/
def loadUserSegment (img : Image) (pd i : ℕ) (s : UserLoad) : LoadStep :=
  let off := img.phdrOff i
  let ph := img.phdr i
  if ph.type ≠ 1 then .next { s with reads := (off,4) :: s.reads }
  else if ph.memsz = 0 then .next { s with reads := (off+20,4) :: (off,4) :: s.reads }
  else
    let reads := (off+16,4) :: (off+4,4) :: (off+20,4) :: (off,4) :: s.reads
    if ph.outside img.len then .fail { s with reads := reads }
    else
      let reads := (off+8,4) :: reads
      match pagingAllocUserPages pd ph.pageStart ph.nPages s.mach with
      | (0,mach) => fillPages img ph pd ph.pages ⟨mach,reads⟩
      | (_,mach) => .fail ⟨mach,reads⟩

def loadUserSegments (img : Image) (pd : ℕ) : List ℕ → UserLoad → LoadStep
  | [], s => .next s
  | i :: rest, s =>
    match loadUserSegment img pd i s with
    | .next s => loadUserSegments img pd rest s
    | r => r

/-- The user-mode entry point, or 0; `none` when a copy left its frame. -/
def elfLoadUser (img : Image) (pd : ℕ) (mach : Machine) : Option ℕ × UserLoad :=
  if img.len < ehdrSize ∨ pd = 0 then (some 0,⟨mach,[]⟩)
  else if img.headerOk then
    match loadUserSegments img pd (List.range img.ePhnum) ⟨mach,[(0,ehdrSize)]⟩ with
    | .next s => (some img.eEntry,s)
    | .fail s => (some 0,s)
    | .overrun s => (none,s)
  else (some 0,⟨mach,[(0,ehdrSize)]⟩)

/-! ## Images with given program headers -/

def bytes16 (n : ℕ) : List UInt8 := [UInt8.ofNat n,UInt8.ofNat (n/256)]
def bytes32 (n : ℕ) : List UInt8 := bytes16 n ++ bytes16 (n/65536)

/-- An ELF header whose program headers follow at offset 52. -/
def ehdrBytes (entry phentsize phnum : ℕ) : List UInt8 :=
  [0x7F,0x45,0x4C,0x46,1,1,1,0,0,0,0,0,0,0,0,0] ++ bytes16 2 ++ bytes16 3 ++ bytes32 1 ++ bytes32 entry ++
  bytes32 ehdrSize ++ bytes32 0 ++ bytes32 0 ++ bytes16 ehdrSize ++ bytes16 phentsize ++ bytes16 phnum ++
  bytes16 0 ++ bytes16 0 ++ bytes16 0

def phdrBytes (ph : Phdr) : List UInt8 :=
  bytes32 ph.type ++ bytes32 ph.offset ++ bytes32 ph.vaddr ++ bytes32 ph.vaddr ++ bytes32 ph.filesz ++
  bytes32 ph.memsz ++ bytes32 7 ++ bytes32 4096

def imageBytes (entry : ℕ) (phs : List Phdr) : List UInt8 :=
  ehdrBytes entry phdrSize phs.length ++ (phs.map phdrBytes).flatten

/-- One page of code at `USER_LOAD_BASE`. -/
def userImage : Image := ⟨imageBytes 0x1000000 [⟨1,0,0x1000000,84,84⟩],fun _ => 0,by decide⟩

/-- Code and data on the same page, as linkers place small segments. -/
def sharedImage : Image :=
  ⟨imageBytes 0x1000000 [⟨1,0,0x1000000,84,84⟩,⟨1,84,0x1000800,4,4⟩],fun _ => 0,by decide⟩

end VesperOS.ElfImage
