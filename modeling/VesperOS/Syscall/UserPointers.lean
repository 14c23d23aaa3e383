import VesperOS.Syscall.CallerBuffers
import VesperOS.Process.LoadedSpace
import VesperOS.Loader.KernelIsolation
import Mathlib.Data.Nat.Bitwise

/-! # Pointers passed to system calls

The kernel uses a pointer as it is, with its own rights. A call keeps to user pages
exactly when all addresses of its buffer are in user pages, and it then changes nothing
but the pages of its caller.
-/
namespace VesperOS.UserPointers
open ByteMemory FrameAllocator Paging AddressSpaces ProcessTable FileDescriptors Pipes AccessProgram
open SyscallHandler CallerBuffers SpaceLifecycle

/-! ## User pages -/

/-- Present with `PAGE_USER` on both levels. -/
structure UserMapped (m : Mem) (pd v : ℕ) : Prop where
  word : v < 2^32
  pde : isPresent (entry m pd (v/4194304)) = true
  pdeUser : entry m pd (v/4194304) &&& pageUser ≠ 0
  pte : isPresent (entry m (pageBase (entry m pd (v/4194304))) (v/4096 % 1024)) = true
  pteUser : entry m (pageBase (entry m pd (v/4194304))) (v/4096 % 1024) &&& pageUser ≠ 0

theorem pageUser_iff (e : ℕ) : e &&& pageUser ≠ 0 ↔ e/4 % 2 = 1 := by
  have h := Nat.and_two_pow e 2
  rw [Nat.testBit_eq_decide_div_mod_eq] at h
  change e &&& 2^2 ≠ 0 ↔ _
  rw [h]
  simp

/-- A ring-3 process in a system call, on its own directory in frame `d`. -/
structure Caller (K : KernelLayout) (s : SysState) (live : List ℕ) (d : ℕ) (c : Slot) : Prop where
  separated : Separated K s.kernel.mach live
  dir : d ∈ live
  current : s.kernel.current = some c
  user : (s.kernel.table c).isUser = true
  pdPhys : (s.kernel.table c).pdPhys = 4096*d
  cr3 : s.kernel.cr3 = 4096*d

section Pages
variable {K : KernelLayout} {mach : Machine} {live : List ℕ} {d : ℕ} (h : Separated K mach live) (hd : d ∈ live)
include h hd

/-- A user page is a page that the directory holds: the kernel's two tables are entered without the flag. -/
theorem userMapped_holds {v : ℕ} (hv : UserMapped mach.mem (4096*d) v) :
    ∃ t f, Holds mach.mem d (.table (v/4194304)) t ∧ Holds mach.mem d (.page (v/4194304) (v/4096 % 1024)) f ∧
      t = entry mach.mem (4096*d) (v/4194304)/4096 ∧ f = entry mach.mem (4096*t) (v/4096 % 1024)/4096 := by
  have hi : v/4194304 < 1024 := by
    have := hv.word
    omega
  have hhigh : 2 ≤ v/4194304 := by
    by_contra hlow
    have hkernel := (h.flagged d hd).kernel (v/4194304) (by omega)
    have huser := (pageUser_iff _).mp hv.pdeUser
    rw [hkernel,KernelLayout.pageTable] at huser
    omega
  have hpte := hv.pte
  rw [pageBase_eq] at hpte
  exact ⟨_,_,⟨hhigh,hi,hv.pde,rfl⟩,⟨_,⟨hhigh,hi,hv.pde,rfl⟩,by omega,hpte,rfl⟩,rfl,rfl⟩

/-- Memories that differ from this one only in the pages of the directory. -/
def PagesOnly (m : Mem) (d : ℕ) (m' : Mem) : Prop :=
  ∀ f, (¬ ∃ i j, Holds m d (.page i j) f) → SameFrame m m' f

/-- Stores to user pages do not reach the tables that translate them. -/
theorem stable_userMapped : Stable (translate (4096*d)) (UserMapped mach.mem (4096*d)) (PagesOnly mach.mem d) := by
  intro m' v hm hv
  obtain ⟨t,f,ht,hf,het,hef⟩ := userMapped_holds h hd hv
  have hi : v/4194304 < 1024 := by
    have := hv.word
    omega
  have hdir : SameFrame mach.mem m' d := by
    apply hm
    rintro ⟨i,j,hp⟩
    have hself : Holds mach.mem d .dir d := rfl
    cases (h.unique hd hd hp hself).2
  have htable : SameFrame mach.mem m' t := by
    apply hm
    rintro ⟨i,j,hp⟩
    cases (h.unique hd hd hp ht).2
  have hpde : entry m' (4096*d) (v/4194304) = entry mach.mem (4096*d) (v/4194304) := hdir.entry hi
  have hpte : entry m' (4096*t) (v/4096 % 1024) = entry mach.mem (4096*t) (v/4096 % 1024) := htable.entry (by omega)
  have hpres := hv.pte
  rw [pageBase_eq,← het] at hpres
  refine ⟨4096*f+v % 4096,?_,?_⟩
  · unfold SyscallHandler.translate
    dsimp only
    rw [hpde,pageBase_eq,← het,hpte,if_pos ⟨hv.pde,hpres⟩,pageBase_eq,← hef]
  · intro b g hg x hx
    have hne : x ≠ 4096*f+v % 4096 := by
      rintro rfl
      apply hg
      refine ⟨v/4194304,v/4096 % 1024,?_⟩
      rw [← hx,show (4096*f+v % 4096)/4096 = f by omega]
      exact hf
    rw [Function.update_of_ne hne]
    exact hm g hg x hx

/-- The pages that a load maps from 8 MB on are user pages. -/
theorem userMapped_of_maps {v w g : ℕ} (hm : Translation.Maps mach.mem d v g) (hv : 2 ≤ v/4194304) (hw : w < 2^32)
    (hpage : w/4096 = v/4096) : UserMapped mach.mem (4096*d) w := by
  have hi : w/4194304 = v/4194304 := by omega
  have hpde := hm.pde
  have hpte := hm.pte
  have htable := (h.flagged d hd).tables (v/4194304) _ ⟨hv,by omega,hpde,rfl⟩
  unfold Translation.pteOf Translation.tableFrame at hpte
  refine ⟨hw,?_,?_,?_,?_⟩
  · rw [hi]
    exact hpde
  · rw [hi,htable,pageUser_iff]
    omega
  · rw [hi,hpage,pageBase_eq,hpte,isPresent_iff]
    omega
  · rw [hi,hpage,pageBase_eq,hpte,pageUser_iff]
    omega

end Pages

/-! ## System calls -/

/-- Every access for the caller is to a user page of its directory. -/
def Confined (K : KernelLayout) (env : Env) (s : SysState) (c : SysCall) : Prop :=
  ∀ v ∈ (outcome K env s c).trace, UserMapped s.kernel.mach.mem s.kernel.cr3 v

/-- Low memory, where the kernel lies, and the directories and tables of all processes. -/
def KernelFrame (m : Mem) (live : List ℕ) (f : ℕ) : Prop :=
  f < lowFrames ∨ ∃ d ∈ live, f = d ∨ ∃ i, Holds m d (.table i) f

theorem kernelFrame_not_page {K : KernelLayout} {mach : Machine} {live : List ℕ} {d f : ℕ}
    (h : Separated K mach live) (hd : d ∈ live) (hf : KernelFrame mach.mem live f) :
    ¬ ∃ i j, Holds mach.mem d (.page i j) f := by
  rintro ⟨i,j,hp⟩
  rcases hf with hlow | ⟨d',hd',rfl | ⟨k,hk⟩⟩
  · exact h.not_low hd hp hlow rfl
  · have hself : Holds mach.mem f .dir f := rfl
    cases (h.unique hd hd' hp hself).2
  · cases (h.unique hd hd' hp hk).2

/-- The accesses of a call for its caller keep to user pages exactly when all addresses of its buffer that it uses do;
it is then completed, and no frame changes but the caller's own pages. Calls that fill no buffer never
change memory. -/
theorem syscall_pointers (K : KernelLayout) (env : Env) (s : SysState) (live : List ℕ) (d : ℕ) (slot : Slot)
    (h : Caller K s live d slot) (c : SysCall) :
    (Confined K env s c ↔ ∀ v ∈ touched env s c, UserMapped s.kernel.mach.mem (4096*d) v) ∧
    (Confined K env s c → (outcome K env s c).result.isSome ∧ PagesOnly s.kernel.mach.mem d (outcome K env s c).mem ∧
      ∀ f, KernelFrame s.kernel.mach.mem live f → SameFrame s.kernel.mach.mem (outcome K env s c).mem f) ∧
    (fills c = false → (outcome K env s c).mem = s.kernel.mach.mem) ∧
    ∀ name, c = .opens name → ∀ v ∈ touched env s c, ∃ k, v = (name+k) % 2^32 ∧ ∀ i < k, callerByte s name i ≠ 0 := by
  have hstable := stable_userMapped h.separated h.dir
  have hsame : PagesOnly s.kernel.mach.mem d s.kernel.mach.mem := fun f _ => SameFrame.refl _ f
  have hfollows := follows_handle K env s c
  rw [h.cr3] at hfollows
  unfold Confined outcome
  rw [h.cr3]
  refine ⟨hfollows.good_iff hstable hsame,?_,?_,?_⟩
  · intro hconf
    obtain ⟨hdone,hpages⟩ := run_stable hstable hsame hconf
    exact ⟨hdone,hpages,fun f hf => hpages f (kernelFrame_not_page h.separated h.dir hf)⟩
  · intro hc
    exact (loadsOnly_handle K env s hc).mem
  · rintro name rfl
    exact touched_opens env s name

/-- The states reached by loading, scheduling and user code are such states. -/
theorem caller_of_inv {K : KernelLayout} {s : SysState} {live : List ℕ} {c : Slot} (h : LoadedSpace.Inv K s.kernel)
    (hsp : LoadedSpace.Spaces K s.kernel live) (hc : s.kernel.current = some c)
    (hu : (s.kernel.table c).isUser = true) : ∃ d, Caller K s live d c := by
  obtain ⟨hpd,hcr3,_⟩ := h.safe c hc hu
  obtain ⟨d,hd,he⟩ := hsp.dir c hpd
  exact ⟨d,hsp.separated,hd,hc,hu,he,hcr3.trans he⟩

/-! ## A kernel buffer -/

/-- A user process on the directory `pd`, scheduled after the idle process. -/
def scheduled (mach : Machine) (pd : ℕ) : Kernel :=
  Scheduler.run sampleLayout (processInit sampleLayout mach fun _ => ⟨⟨none,0⟩,0,.unused,0,false,0,0⟩)
    [.createUser 0x800000 Exec.userStackTop pd,.yield,.yield]

/-- The process, and one pipe with the byte `0xAB` in it. -/
def callerState (mach : Machine) (pd : ℕ) : SysState :=
  ⟨scheduled mach pd,fdInit,(pipeWrite 0 [0xAB] (pipeAlloc pipeInit).2).2,[]⟩

def idleEnv : Env := ⟨⟨FaultyTransfers.ataDrive,fun _ => false,fun _ _ => 0⟩,0,0,0⟩

theorem firstDirectory_ne : 4096*firstDirectory ≠ 0 := by
  obtain ⟨q,ht,_⟩ := oneDirectory_spec
  exact ht.addr_ne_zero

/-- A program at 8 MB loaded into the first directory. -/
theorem loaded_program : ∃ mach, mach = (ElfImage.elfLoadUser KernelIsolation.highImage (4096*firstDirectory)
      oneDirectory.mach).2.mach ∧ Separated sampleLayout mach [firstDirectory] ∧
    KernelIsolation.KernelKept sampleLayout firstDirectory oneDirectory.mach mach ∧
    ∃ g, Translation.Maps mach.mem firstDirectory 0x800000 g := by
  have hd : firstDirectory ∈ [firstDirectory] := List.mem_singleton_self _
  have hpages : (LoadPlan.plan KernelIsolation.highImage ⟨7935,{0,1}⟩).pages = [0x800000] := by decide +kernel
  obtain ⟨-,hrun,-,-⟩ := LoadPlan.elfLoadUser_plan oneDirectory_separated hd KernelIsolation.highImage
  rw [LoadPlan.oneDirectory_budget,hpages] at hrun
  obtain ⟨-,g,hmap,-⟩ := hrun.mapped oneDirectory_separated hd 0x800000 List.mem_cons_self
  have hkept := KernelIsolation.kernelKept_of_high (K := sampleLayout) oneDirectory_separated hd hrun (by simp)
  exact ⟨_,rfl,hrun.separated oneDirectory_separated hd,hkept,g,hmap⟩

/-- The scheduler gives the process its directory. -/
theorem scheduled_spec (mach : Machine) {pd : ℕ} (hpd : pd ≠ 0) :
    (scheduled mach pd).mach = mach ∧ (scheduled mach pd).current = some 1 ∧
      ((scheduled mach pd).table 1).isUser = true ∧ ((scheduled mach pd).table 1).pdPhys = pd ∧
      (scheduled mach pd).cr3 = pd :=
  ⟨rfl,rfl,rfl,rfl,if_pos hpd⟩

theorem callerState_spec {mach : Machine} {live : List ℕ} {d : ℕ} (h : Separated sampleLayout mach live) (hd : d ∈ live)
    (hpos : 4096*d ≠ 0) : Caller sampleLayout (callerState mach (4096*d)) live d 1 := by
  obtain ⟨hmach,hc,hu,hpd,hcr3⟩ := scheduled_spec mach hpos
  refine ⟨?_,hd,hc,hu,hpd,hcr3⟩
  unfold callerState
  rw [hmach]
  exact h

/-- `SYS_WRITE` of the four bytes of the program. -/
theorem syscall_pointers_write : ∃ mach, Caller sampleLayout (callerState mach (4096*firstDirectory)) [firstDirectory]
    firstDirectory 1 ∧
    Confined sampleLayout idleEnv (callerState mach (4096*firstDirectory)) (decode ⟨1,0x800000,4,0⟩) := by
  obtain ⟨mach,-,hsep,-,g,hmap⟩ := loaded_program
  have hd : firstDirectory ∈ [firstDirectory] := List.mem_singleton_self _
  have hcaller := callerState_spec hsep hd firstDirectory_ne
  refine ⟨mach,hcaller,(syscall_pointers sampleLayout idleEnv _ _ _ _ hcaller _).1.mpr ?_⟩
  intro v hv
  obtain ⟨j,hj,rfl⟩ := mem_span.mp (show v ∈ span 0x800000 4 from hv)
  exact userMapped_of_maps hsep hd hmap (by decide) (Nat.mod_lt _ (by decide)) (by omega)

/-- Where the kernel's tables map a page of the first 4 MB to itself, so does every directory. -/
theorem translate_kernel {K : KernelLayout} {mach : Machine} {live : List ℕ} {d n : ℕ} (h : Separated K mach live)
    (hd : d ∈ live) (hn : n < 1024) (hpte : entry mach.mem (K.pageTable 0) n = 4096*n+3) :
    translate (4096*d) mach.mem (4096*n) = some (4096*n) := by
  have hpde := (h.flagged d hd).kernel 0 (by decide)
  have hbase : pageBase (K.pageTable 0+3) = K.pageTable 0 := by
    rw [pageBase_eq,KernelLayout.pageTable]
    omega
  have hpresent : isPresent (K.pageTable 0+3) = true := by
    rw [isPresent_iff,KernelLayout.pageTable]
    omega
  unfold SyscallHandler.translate
  dsimp only
  rw [show 4096*n/4194304 = 0 by omega,show 4096*n/4096 % 1024 = n by omega,hpde,hbase,hpte,
    if_pos ⟨hpresent,(isPresent_iff _).mpr (by omega)⟩,pageBase_eq]
  congr 1
  omega

theorem entry_kernelKept {K : KernelLayout} {d n : ℕ} {mach mach' : Machine} (h : KernelIsolation.KernelKept K d mach mach')
    (hid : IdentityMapped K mach.mem) (hn : n < 1024) : entry mach'.mem (K.pageTable 0) n = 4096*n+3 := by
  have hentry := hid.tables 0 (by decide) n hn
  rw [Nat.mul_zero,Nat.zero_add] at hentry
  rw [← hentry]
  exact (h.tables 0 (by decide)).entry hn

/-- `SYS_PIPE_READ` of one byte stores where EDX says. -/
theorem pipeRead_stores (mach : Machine) {pd : ℕ} (hpd : pd ≠ 0)
    (htr : translate pd mach.mem (4096*16) = some (4096*16)) :
    (outcome sampleLayout idleEnv (callerState mach pd) (decode ⟨12,0,1,4096*16⟩)).mem (4096*16) = 0xAB := by
  obtain ⟨r,hprog⟩ : ∃ r, handle sampleLayout idleEnv (callerState mach pd) (decode ⟨12,0,1,4096*16⟩) =
      .store (4096*16) 0xAB (.ret r) := ⟨_,rfl⟩
  have hcr3 : (callerState mach pd).kernel.cr3 = pd := if_pos hpd
  have hmem : (callerState mach pd).kernel.mach.mem = mach.mem := rfl
  unfold outcome
  rw [hprog,hcr3,hmem,run_store_some htr]
  change Function.update mach.mem (4096*16) 0xAB (4096*16) = 0xAB
  exact Function.update_self _ _ _

/-- The kernel's page directory is overwritten by a ring-3 process. -/
theorem kernel_buffer_filled : ¬ ∀ (K : KernelLayout) (env : Env) (s : SysState) (live : List ℕ) (d : ℕ) (slot : Slot),
    Caller K s live d slot → ∀ r : Regs, Confined K env s (decode r) ∧ ∀ f, KernelFrame s.kernel.mach.mem live f →
      SameFrame s.kernel.mach.mem (outcome K env s (decode r)).mem f := by
  intro h
  have hd : firstDirectory ∈ [firstDirectory] := List.mem_singleton_self _
  obtain ⟨mach,-,hsep,hkept,-⟩ := loaded_program
  have hcaller := callerState_spec hsep hd firstDirectory_ne
  have hpte : entry mach.mem (sampleLayout.pageTable 0) 16 = 4096*16+3 :=
    entry_kernelKept hkept oneDirectory_identity (by decide)
  have hafter := pipeRead_stores mach firstDirectory_ne
    (translate_kernel hsep hd (by decide) hpte)
  have hkernel := (h sampleLayout idleEnv _ _ _ _ hcaller ⟨12,0,1,4096*16⟩).2 16 (Or.inl (by decide)) (4096*16)
    (Nat.mul_div_cancel_left 16 (by decide))
  have hbefore := hcaller.separated.kernelPd 0 (by decide)
  generalize (callerState mach (4096*firstDirectory)).kernel.mach.mem = m at hkernel hbefore
  rw [hafter] at hkernel
  have hentry : read32 m (4096*16) = 4096*17+3 := hbefore
  unfold read32 at hentry
  rw [← hkernel,show (0xAB : UInt8).toNat = 171 from rfl] at hentry
  omega

end VesperOS.UserPointers
