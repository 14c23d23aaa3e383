import VesperOS.Base.ByteMemory
import VesperOS.Base.Tiling

/-! # The kernel heap

`kmem.c` over byte-addressed memory: a block header is four 32-bit words at the
address of the block, and a pointer is an address, 0 for NULL. The loops over the
block list carry fuel for one more step than the heap can hold headers; running
out of it is the result `none`.
-/
namespace VesperOS.Kmem
open ByteMemory

def heapSize : ℕ := 262144
def heapMagic : ℕ := 0xDEAD1337
/-- `sizeof(block_header_t)`. -/
def headerSize : ℕ := 16

/-- Where the linker puts `heap_storage`. -/
structure HeapLayout where
  base : ℕ
  pos : 0 < base
  fits : base + heapSize ≤ 2^32

/-! ## Header fields -/

def blockSize (m : Mem) (p : ℕ) : ℕ := read32 m p
def blockFree (m : Mem) (p : ℕ) : ℕ := read32 m (p+4)
def blockMagic (m : Mem) (p : ℕ) : ℕ := read32 m (p+8)
def blockNext (m : Mem) (p : ℕ) : ℕ := read32 m (p+12)

def setSize (m : Mem) (p v : ℕ) : Mem := write32 m p v
def setFree (m : Mem) (p v : ℕ) : Mem := write32 m (p+4) v
def setMagic (m : Mem) (p v : ℕ) : Mem := write32 m (p+8) v
def setNext (m : Mem) (p v : ℕ) : Mem := write32 m (p+12) v

/-- Memory and `heap_head`. -/
structure Heap where
  mem : Mem
  head : ℕ

def kmemInit (H : HeapLayout) (m : Mem) : Heap :=
  let m := setSize m H.base (heapSize-headerSize)
  let m := setFree m H.base 1
  let m := setMagic m H.base heapMagic
  ⟨setNext m H.base 0,H.base⟩

/-- Enough for every header and the final NULL test. -/
def walkFuel : ℕ := heapSize/headerSize+1

/-! ## `kmalloc` -/

/-- `(size + 3u) & ~3u`. -/
def roundUp (size : ℕ) : ℕ := (size+3) % 2^32/4*4

/-- Take the block `curr`, splitting it when a header and four bytes remain. -/
def takeBlock (m : Mem) (curr size : ℕ) : ℕ × Mem :=
  let m :=
    if (size+headerSize+4) % 2^32 ≤ blockSize m curr then
      let split := (curr+headerSize+size) % 2^32
      let m := setSize m split ((blockSize m curr+(2^32-size)+(2^32-headerSize)) % 2^32)
      let m := setFree m split 1
      let m := setMagic m split heapMagic
      let m := setNext m split (blockNext m curr)
      let m := setNext m curr split
      setSize m curr size
    else m
  (curr+headerSize,setFree m curr 0)

def kmallocLoop (m : Mem) (size : ℕ) : ℕ → ℕ → Option (ℕ × Mem)
  | 0, _ => none
  | fuel+1, curr =>
    if curr = 0 then some (0,m)
    else if blockFree m curr ≠ 0 ∧ size ≤ blockSize m curr then some (takeBlock m curr size)
    else kmallocLoop m size fuel (blockNext m curr)

def kmalloc (h : Heap) (size : ℕ) : Option (ℕ × Heap) :=
  if size = 0 then some (0,h)
  else (kmallocLoop h.mem (roundUp size) walkFuel h.head).map (fun r => (r.1,{ h with mem := r.2 }))

/-! ## `kfree` -/

def coalesce : ℕ → ℕ → Mem → Option Mem
  | 0, _, _ => none
  | fuel+1, curr, m =>
    if curr = 0 ∨ blockNext m curr = 0 then some m
    else if blockFree m curr ≠ 0 ∧ blockFree m (blockNext m curr) ≠ 0 then
      let m := setSize m curr ((blockSize m curr+headerSize+blockSize m (blockNext m curr)) % 2^32)
      coalesce fuel curr (setNext m curr (blockNext m (blockNext m curr)))
    else coalesce fuel (blockNext m curr) m

def kfree (h : Heap) (ptr : ℕ) : Option Heap :=
  if ptr = 0 then some h
  else
    let block := (ptr+(2^32-headerSize)) % 2^32
    if blockMagic h.mem block ≠ heapMagic ∨ blockFree h.mem block ≠ 0 then some h
    else (coalesce walkFuel h.head (setFree h.mem block 1)).map (fun m => { h with mem := m })

/-! ## `kmem_info` -/

/-- Used and free bytes, added in 32 bits. -/
def infoLoop (m : Mem) : ℕ → ℕ → ℕ × ℕ → Option (ℕ × ℕ)
  | 0, _, _ => none
  | fuel+1, curr, (used,free) =>
    if curr = 0 then some (used,free)
    else if blockFree m curr ≠ 0 then infoLoop m fuel (blockNext m curr) (used,(free+blockSize m curr) % 2^32)
    else infoLoop m fuel (blockNext m curr) ((used+blockSize m curr) % 2^32,free)

/-- Used, free and total bytes. -/
def kmemInfo (h : Heap) : Option (ℕ × ℕ × ℕ) :=
  (infoLoop h.mem walkFuel h.head (0,0)).map (fun r => (r.1,r.2,heapSize))

/-- The addresses of the blocks, following `next` from `curr`. -/
def blockList (m : Mem) : ℕ → ℕ → Option (List ℕ)
  | 0, _ => none
  | fuel+1, curr =>
    if curr = 0 then some []
    else (blockList m fuel (blockNext m curr)).map (fun ps => curr :: ps)

end VesperOS.Kmem
