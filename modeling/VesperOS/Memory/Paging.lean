import VesperOS.Base.ByteMemory
import VesperOS.Memory.FrameAllocator

/-! # Two-level page tables in physical memory

`paging.c` over a byte-addressed physical memory. Directories and tables are
ordinary frames: an entry is the 32-bit word at `table + 4*index`. The kernel
reaches every frame by its physical address, so a pointer is a physical address
here and CR3 plays no part in these functions.
-/
namespace VesperOS.Paging
open ByteMemory FrameAllocator

/-- `PAGE_PRESENT`, `PAGE_WRITABLE` and `PAGE_USER`. -/
def pagePresent : ℕ := 1
def pageWritable : ℕ := 2
def pageUser : ℕ := 4

/-- Where the linker puts `page_directory` and the two `page_tables`, in frames:
4 KB-aligned static arrays of the kernel image, which lies below 1 MB. -/
structure KernelLayout where
  directoryFrame : ℕ
  tablesFrame : ℕ
  directory_low : directoryFrame < lowFrames
  tables_low : tablesFrame + 1 < lowFrames
  directory_pos : 0 < directoryFrame
  tables_pos : 0 < tablesFrame
  disjoint : directoryFrame < tablesFrame ∨ tablesFrame + 1 < directoryFrame

/-- Address of `page_directory`. -/
def KernelLayout.pageDirectory (K : KernelLayout) : ℕ := 4096*K.directoryFrame
/-- Address of `page_tables[t]`. -/
def KernelLayout.pageTable (K : KernelLayout) (t : ℕ) : ℕ := 4096*(K.tablesFrame+t)

/-- Physical memory and the frame allocator. -/
structure Machine where
  mem : Mem
  pmm : Pmm

/-- `x & ~0xFFF` on a 32-bit word. -/
def pageBase (x : ℕ) : ℕ := x/4096*4096

/-- Entry `i` of the directory or table at physical address `t`. -/
def entry (m : Mem) (t i : ℕ) : ℕ := read32 m (t+4*i)
def setEntry (m : Mem) (t i v : ℕ) : Mem := write32 m (t+4*i) v

/-- `e & PAGE_PRESENT`. -/
def isPresent (e : ℕ) : Bool := e &&& pagePresent != 0

/-- One kernel page table of `paging_init`: 1024 supervisor entries. -/
def identityTable (K : KernelLayout) (t : ℕ) (m : Mem) : Mem :=
  (List.range 1024).foldl
    (fun m i => setEntry m (K.pageTable t) i ((t*4194304+i*4096) ||| pagePresent ||| pageWritable)) m

/-- `paging_init`, up to loading CR3 and setting CR0.PG. -/
def pagingInit (K : KernelLayout) (m : Mem) : Mem :=
  (List.range 2).foldl
    (fun m t => setEntry (identityTable K t m) K.pageDirectory t
      (K.pageTable t ||| pagePresent ||| pageWritable))
    (memset m K.pageDirectory 0 4096)

def pagingCreatePd (K : KernelLayout) (s : Machine) : ℕ × Machine :=
  let (pd,pmm) := pmmAllocFrame s.pmm
  if pd = 0 then (0,{ s with pmm := pmm })
  else
    let m := memset s.mem pd 0 4096
    let m := setEntry m pd 0 (entry m K.pageDirectory 0)
    let m := setEntry m pd 1 (entry m K.pageDirectory 1)
    (pd,⟨m,pmm⟩)

/-- The first half of the loop body of `paging_alloc_user_pages`: give the
directory a page table for this 4 MB region if it has none. -/
def ensureTable (pd pdi : ℕ) (s : Machine) : Bool × Machine :=
  if isPresent (entry s.mem pd pdi) then (true,s)
  else
    let (pt,pmm) := pmmAllocFrame s.pmm
    if pt = 0 then (false,{ s with pmm := pmm })
    else (true,⟨setEntry (memset s.mem pt 0 4096) pd pdi
      (pt ||| pagePresent ||| pageWritable ||| pageUser),pmm⟩)

/-- The second half: a frame for the page, entered in the table the directory
names now. -/
def enterFrame (pd pdi pti : ℕ) (s : Machine) : Bool × Machine :=
  let (frame,pmm) := pmmAllocFrame s.pmm
  if frame = 0 then (false,{ s with pmm := pmm })
  else (true,⟨setEntry s.mem (pageBase (entry s.mem pd pdi)) pti
    (frame ||| pagePresent ||| pageWritable ||| pageUser),pmm⟩)

/-- One iteration of the loop; `false` is its `return -1`. -/
def allocUserPage (pd virt : ℕ) (s : Machine) : Bool × Machine :=
  match ensureTable pd (virt/4194304) s with
  | (false,s) => (false,s)
  | (true,s) => enterFrame pd (virt/4194304) (virt/4096 % 1024) s

def allocUserPages (pd : ℕ) : List ℕ → Machine → Bool × Machine
  | [], s => (true,s)
  | virt :: rest, s =>
    match allocUserPage pd virt s with
    | (false,s) => (false,s)
    | (true,s) => allocUserPages pd rest s

/-- The virtual pages `virt_base + i * PAGE_SIZE`, in 32-bit arithmetic. -/
def pagesFrom (virtBase n : ℕ) : List ℕ := (List.range n).map (fun i => (virtBase+i*4096) % 2^32)

def pagingAllocUserPages (pd virtBase n : ℕ) (s : Machine) : ℤ × Machine :=
  match allocUserPages pd (pagesFrom virtBase n) s with
  | (true,s) => (0,s)
  | (false,s) => (-1,s)

/-- Inner loop of `paging_destroy_pd` over the page table at `pt`. -/
def freeTableFrames (m : Mem) (pt : ℕ) (p : Pmm) : Pmm :=
  (List.range 1024).foldl
    (fun p j => if isPresent (entry m pt j) then pmmFreeFrame p (pageBase (entry m pt j)) else p) p

/-- Outer loop: PDEs 2 to 1023. -/
def freeTables (m : Mem) (pd : ℕ) (p : Pmm) : Pmm :=
  (List.range' 2 1022).foldl
    (fun p i => if isPresent (entry m pd i) then
        pmmFreeFrame (freeTableFrames m (pageBase (entry m pd i)) p) (pageBase (entry m pd i))
      else p) p

def pagingDestroyPd (pd : ℕ) (s : Machine) : Machine :=
  { s with pmm := pmmFreeFrame (freeTables s.mem pd s.pmm) pd }

/-- `phys_of_virt` of `elf.c`: 0 when the page is not mapped. -/
def physOfVirt (m : Mem) (pd virt : ℕ) : ℕ :=
  let pdi := virt/4194304
  let pti := virt/4096 % 1024
  if isPresent (entry m pd pdi) then
    if isPresent (entry m (pageBase (entry m pd pdi)) pti) then
      pageBase (entry m (pageBase (entry m pd pdi)) pti)
    else 0
  else 0

/-! ## Entry words -/

theorem isPresent_iff (e : ℕ) : isPresent e = true ↔ e % 2 = 1 := by
  have h : e % 2 = 0 ∨ e % 2 = 1 := by omega
  rcases h with h | h <;> simp [isPresent,pagePresent,Nat.and_one_is_mod,h]

/-- Flag bits or-ed into an aligned address are its remainder. -/
theorem user_flags (n : ℕ) :
    (4096*n ||| pagePresent ||| pageWritable ||| pageUser) = 4096*n + 7 := by
  have h := Nat.two_pow_add_eq_or_of_lt (i := 12) (b := 7) (by decide) n
  simp only [Nat.or_assoc,pagePresent,pageWritable,pageUser]
  simpa using h.symm

theorem kernel_flags (n : ℕ) : (4096*n ||| pagePresent ||| pageWritable) = 4096*n + 3 := by
  have h := Nat.two_pow_add_eq_or_of_lt (i := 12) (b := 3) (by decide) n
  simp only [Nat.or_assoc,pagePresent,pageWritable]
  simpa using h.symm

theorem KernelLayout.pageTable_lt (K : KernelLayout) {t : ℕ} (ht : t < 2) : K.pageTable t + 3 < 2^32 := by
  have h := K.tables_low
  simp only [KernelLayout.pageTable,lowFrames] at *
  omega

theorem entry_setEntry_same (m : Mem) (t i v : ℕ) (hv : v < 2^32) :
    entry (setEntry m t i v) t i = v := by
  rw [entry,setEntry,read32_write32_same,Nat.mod_eq_of_lt hv]

theorem entry_setEntry_of_ne (m : Mem) {t u i j : ℕ} (v : ℕ) (h : t + 4*i ≠ u + 4*j)
    (ht : t % 4 = 0) (hu : u % 4 = 0) : entry (setEntry m t i v) u j = entry m u j :=
  read32_write32_of_disjoint m (by omega)

/-! ## Frames as regions of memory -/

/-- Two memories hold the same bytes in the frame with this number. -/
def SameFrame (m m' : Mem) (n : ℕ) : Prop := ∀ x, x/4096 = n → m' x = m x

theorem SameFrame.refl (m : Mem) (n : ℕ) : SameFrame m m n := fun _ _ => rfl

theorem SameFrame.trans {m m' m'' : Mem} {n : ℕ} (h : SameFrame m m' n) (h' : SameFrame m' m'' n) :
    SameFrame m m'' n := fun x hx => (h' x hx).trans (h x hx)

theorem SameFrame.entry {m m' : Mem} {n i : ℕ} (h : SameFrame m m' n) (hi : i < 1024) :
    entry m' (4096*n) i = entry m (4096*n) i :=
  read32_congr fun x h1 h2 => h x (by omega)

theorem sameFrame_store (m : Mem) {x n : ℕ} (b : UInt8) (hn : n ≠ x/4096) : SameFrame m (Function.update m x b) n := by
  intro y hy
  apply Function.update_of_ne
  rintro rfl
  exact hn hy.symm

theorem sameFrame_setEntry (m : Mem) {n k i : ℕ} (v : ℕ) (hi : i < 1024) (h : k ≠ n) :
    SameFrame m (setEntry m (4096*n) i v) k :=
  fun x hx => write32_of_outside m (by omega)

theorem sameFrame_memset (m : Mem) {n k : ℕ} (c : UInt8) (h : k ≠ n) :
    SameFrame m (memset m (4096*n) c 4096) k :=
  fun x hx => memset_of_outside m c (by omega)

theorem entry_memset_zero (m : Mem) {n i : ℕ} (hi : i < 1024) :
    entry (memset m (4096*n) 0 4096) (4096*n) i = 0 :=
  read32_memset_zero m (by omega) (by omega)

/-- Every page base is the address of its frame. -/
theorem pageBase_eq (x : ℕ) : pageBase x = 4096*(x/4096) := by
  simp only [pageBase]
  omega

end VesperOS.Paging
