import VesperOS.Base.ByteMemory
import VesperOS.Base.DiskProgram

/-! # VesperFS

`fs.c` and the sector loops of `ata.c` as programs over a sector device. The
directory buffer is byte memory, loaded from its eight sectors at the start of every
operation. A C string is the list of its bytes before the NUL; NULL pointers are
not modelled.
-/
namespace VesperOS.VesperFs
open ByteMemory DiskProgram

abbrev Sector := Fin 512 → UInt8
abbrev Bytes := List UInt8
abbrev FsProg := Prog Sector

/-! ## `ata.c` -/

/-- The sector that the 28 address bits of a command select. -/
def ataSector (lba : ℕ) : ℕ := lba % 2^28

/-- A drive of `N` sectors: transfers past its end fail. -/
def drive (N : ℕ) : Drive := ⟨fun lba => lba < N,ataSector⟩

def ataReadSectors (lba : ℕ) : ℕ → FsProg (Option (List Sector))
  | 0 => pure (some [])
  | count+1 => do
    match ← readAt lba with
    | none => pure none
    | some s =>
      match ← ataReadSectors (lba+1) count with
      | none => pure none
      | some ss => pure (some (s :: ss))

def ataWriteSectors (lba : ℕ) : List Sector → FsProg Bool
  | [] => pure true
  | s :: ss => do
    if ← writeAt lba s then ataWriteSectors (lba+1) ss else pure false

/-! ## Layout -/

def fsSuperLba : ℕ := 129
def fsDirLba : ℕ := 130
def fsDirSectors : ℕ := 8
def fsDataLba : ℕ := 138
def fsMaxFiles : ℕ := 64
def fsNameMax : ℕ := 31
def fsMagic : Bytes := [0x56,0x45,0x53,0x50,0x45,0x52,0x46,0x53]

/-- A sector as memory that starts at address 0. -/
def sectorMem (s : Sector) : Mem := fun a => if h : a < 512 then s ⟨a,h⟩ else 0

def memSector (m : Mem) (off : ℕ) : Sector := fun i => m (off+i.val)

/-- `memcmp(sb.magic, FS_MAGIC, 8) == 0`. -/
def magicOk (sb : Sector) : Bool := (List.range 8).map (sectorMem sb) = fsMagic

def numFiles (sb : Sector) : ℕ := read32 (sectorMem sb) 12

def setNumFiles (sb : Sector) (n : ℕ) : Sector := memSector (write32 (sectorMem sb) 12 n) 0

def readSuper : FsProg (Option Sector) := do
  match ← ataReadSectors fsSuperLba 1 with
  | some [s] => pure (some s)
  | _ => pure none

def writeSuper (sb : Sector) : FsProg Bool := ataWriteSectors fsSuperLba [sb]

/-- `dir_buf` after its sectors were read. -/
def dirBuf (ss : List Sector) : Mem := fun a => sectorMem (ss.getD (a/512) (fun _ => 0)) (a%512)

def readDir : FsProg (Option Mem) := do
  match ← ataReadSectors fsDirLba fsDirSectors with
  | some ss => pure (some (dirBuf ss))
  | none => pure none

def dirSectors (dir : Mem) : List Sector := (List.range fsDirSectors).map (fun j => memSector dir (512*j))

def writeDir (dir : Mem) : FsProg Bool := ataWriteSectors fsDirLba (dirSectors dir)

/-! ## Directory entries -/

def entryAddr (i : ℕ) : ℕ := 64*i
def startLba (dir : Mem) (i : ℕ) : ℕ := read32 dir (entryAddr i+32)
def fileSize (dir : Mem) (i : ℕ) : ℕ := read32 dir (entryAddr i+36)
def flags (dir : Mem) (i : ℕ) : ℕ := read32 dir (entryAddr i+40)

def Active (dir : Mem) (i : ℕ) : Prop := dir (entryAddr i) ≠ 0 ∧ flags dir i ≠ 1

instance (dir : Mem) (i : ℕ) : Decidable (Active dir i) := inferInstanceAs (Decidable (_ ∧ _))

/-- `strcmp` of the string at `a` with a string of non-NUL bytes gives 0. -/
def strcmpEq (m : Mem) (a : ℕ) : Bytes → Prop
  | [] => m a = 0
  | c :: cs => m a = c ∧ strcmpEq m (a+1) cs

instance decidableStrcmpEq (m : Mem) : (a : ℕ) → (s : Bytes) → Decidable (strcmpEq m a s)
  | a, [] => inferInstanceAs (Decidable (m a = 0))
  | a, _ :: cs => @instDecidableAnd _ _ _ (decidableStrcmpEq m (a+1) cs)

/-- Entry `i` is active and has this name. -/
def Matches (dir : Mem) (name : Bytes) (i : ℕ) : Prop := Active dir i ∧ strcmpEq dir (entryAddr i) name

instance (dir : Mem) (name : Bytes) (i : ℕ) : Decidable (Matches dir name i) := inferInstanceAs (Decidable (_ ∧ _))

/-- The first entry that `fs_open` and `fs_delete` stop at. -/
def findEntry (dir : Mem) (name : Bytes) : Option ℕ :=
  (List.range fsMaxFiles).find? (fun i => Matches dir name i)

def sectorsOf (size : ℕ) : ℕ := (size+511) % 2^32/512

/-- End of the data of entry `i`, in 32 bits. -/
def endLba (dir : Mem) (i : ℕ) : ℕ := (startLba dir i+sectorsOf (fileSize dir i)) % 2^32

/-- `strncpy(e->name, name, FS_NAME_MAX)` and the other stores into a fresh entry. -/
def setEntry (dir : Mem) (i : ℕ) (name : Bytes) (start size : ℕ) : Mem :=
  let e := entryAddr i
  let dir := memset dir e 0 64
  let dir := memcpy dir e (fun k => name.getD k 0) fsNameMax
  let dir := write8 dir (e+fsNameMax) 0
  let dir := write32 dir (e+32) start
  let dir := write32 dir (e+36) size
  write32 dir (e+40) 0

/-! ## Operations -/

def blankSuper : Sector :=
  memSector (write32 (write32 (memcpy (fun _ => 0) 0 (fun k => fsMagic.getD k 0) 8) 8 1) 12 0) 0

def fsFormat : FsProg ℤ := do
  if ← writeSuper blankSuper then
    if ← writeDir (fun _ => 0) then pure 0 else pure (-1)
  else pure (-1)

/-- `fs_file_t`. -/
structure File where
  startLba : ℕ
  size : ℕ
  pos : ℕ
  valid : Bool
  deriving DecidableEq

/-- The handle when the file is found; `none` is the result -1. -/
def fsOpen (name : Bytes) : FsProg (Option File) := do
  match ← readDir with
  | none => pure none
  | some dir =>
    match findEntry dir name with
    | none => pure none
    | some i => pure (some ⟨VesperFs.startLba dir i,fileSize dir i,0,true⟩)

/-- The loop of `fs_read`: the bytes delivered and the handle. Every turn delivers at least one byte, so
`fuel = remaining` is enough. -/
def fsReadLoop : ℕ → ℕ → File → FsProg (Bytes × File)
  | 0, _, f => pure ([],f)
  | fuel+1, remaining, f =>
    if remaining = 0 then pure ([],f)
    else do
      match ← readAt ((f.startLba+f.pos/512) % 2^32) with
      | none => pure ([],f)
      | some s =>
        let chunk := min (512-f.pos%512) remaining
        let out := (List.range chunk).map (fun k => sectorMem s (f.pos%512+k))
        let (rest,f) ← fsReadLoop fuel (remaining-chunk) { f with pos := (f.pos+chunk) % 2^32 }
        pure (out++rest,f)

def fsRead (f : File) (len : ℕ) : FsProg (Bytes × File) :=
  if f.valid = false ∨ f.size ≤ f.pos then pure ([],f)
  else fsReadLoop (min len (f.size-f.pos)) (min len (f.size-f.pos)) f

/-- What the directory scan of `fs_write_new` keeps. -/
structure Scan where
  target : Option ℕ
  isOverwrite : Bool
  nextDataLba : ℕ
  deriving DecidableEq

def scanEntry (dir : Mem) (name : Bytes) (acc : Scan) (i : ℕ) : Scan :=
  if Active dir i then
    let acc := if strcmpEq dir (entryAddr i) name then { acc with target := some i, isOverwrite := true } else acc
    if acc.nextDataLba < endLba dir i then { acc with nextDataLba := endLba dir i } else acc
  else if acc.target = none then { acc with target := some i } else acc

def scanDir (dir : Mem) (name : Bytes) : Scan :=
  (List.range fsMaxFiles).foldl (scanEntry dir name) ⟨none,false,fsDataLba⟩

/-- A sector of file data, padded with zeros. -/
def padSector (bs : Bytes) : Sector := fun i => bs.getD i.val 0

/-- The data loop of `fs_write_new`, from sector `s` of the file on. -/
def writeData (base : ℕ) : ℕ → ℕ → Bytes → FsProg Bool
  | 0, _, _ => pure true
  | n+1, s, rest => do
    if ← writeAt ((base+s) % 2^32) (padSector (rest.take 512)) then writeData base n (s+1) (rest.drop 512)
    else pure false

def fsWriteNew (name data : Bytes) : FsProg ℤ :=
  if name = [] then pure (-1)
  else do
    match ← readSuper with
    | none => pure (-1)
    | some sb =>
      match ← readDir with
      | none => pure (-1)
      | some dir =>
        if magicOk sb = false then pure (-1)
        else
          match (scanDir dir name).target with
          | none => pure (-1)
          | some slot =>
            let next := (scanDir dir name).nextDataLba
            if ← writeData next (sectorsOf data.length) 0 data then
              if ← writeDir (setEntry dir slot name next data.length) then
                let sb := if (scanDir dir name).isOverwrite then sb else setNumFiles sb (numFiles sb+1)
                if ← writeSuper sb then pure 0 else pure (-1)
              else pure (-1)
            else pure (-1)

def fsDelete (name : Bytes) : FsProg ℤ :=
  if name = [] then pure (-1)
  else do
    match ← readDir with
    | none => pure (-1)
    | some dir =>
      match findEntry dir name with
      | none => pure (-1)
      | some i =>
        if ← writeDir (write32 dir (entryAddr i+40) 1) then
          match ← readSuper with
          | none => pure 0
          | some sb =>
            if 0 < numFiles sb then
              -- the result of this write is ignored
              let _ ← writeSuper (setNumFiles sb (numFiles sb-1))
              pure 0
            else pure 0
        else pure (-1)

end VesperOS.VesperFs
