import VesperOS.Syscall.UserPointers

/-! # User code on its own directory

Runs of `cmd_exec`, the operations on processes, user code and its system calls. Between
two steps a user process that is current may be in ring 3. The kernel stores through the
pointers of a caller with its own rights, so a call may reach the tables in CR3 as well.
-/
namespace VesperOS.UserSpace
open ByteMemory FrameAllocator Paging AddressSpaces Translation ElfImage LoadPlan ProcessTable Scheduler ContextSwitch
open Exec SpaceLifecycle Pipes AccessProgram SyscallHandler CallerBuffers UserPointers LoadedSpace
open VesperFs (Bytes)
open FileDescriptors (FdTable)

/-! ## Runs -/

/-- The state that a system call leaves; `none` when a page fault halted the kernel. -/
def afterCall (K : KernelLayout) (env : Env) (s : SysState) (c : SysCall) : Option SysState :=
  let o := outcome K env s c
  o.result.map fun r => { r.2 with kernel := { r.2.kernel with mach := ⟨o.mem,r.2.kernel.mach.pmm⟩ } }

inductive Event where
  | act (act : Act)
  | syscall (env : Env) (call : SysCall)
  /-- Kernel code works on the descriptors, the pipes and the screen. -/
  | tables (fds : FdTable) (pipes : PipeTable) (screen : Bytes)

/-- One step. User code reaches the frames that its directory maps, and no other; a copy that leaves its
frame may leave any state. -/
inductive Step (K : KernelLayout) : SysState → Event → SysState → Prop
  | returned {s : SysState} {k' : Kernel} {file : Option Image} : cmdExec K file s.kernel = .returned k' →
      Step K s (.act (.exec file)) { s with kernel := k' }
  | spawned {s : SysState} {k' : Kernel} {file : Option Image} {i : Slot} : cmdExec K file s.kernel = .spawned i k' →
      Step K s (.act (.exec file)) { s with kernel := processYield K k' }
  | overrun {s s' : SysState} {file : Option Image} : cmdExec K file s.kernel = .overrun →
      Step K s (.act (.exec file)) s'
  | call {s : SysState} {call : KernelCall} : Direct call →
      Step K s (.act (.call call)) { s with kernel := call.apply K s.kernel }
  | store {s : SysState} {c : Slot} {x i j : ℕ} {b : UInt8} : s.kernel.current = some c →
      (s.kernel.table c).isUser = true → Holds s.kernel.mach.mem (s.kernel.cr3/4096) (.page i j) (x/4096) →
      Step K s (.act (.store x b))
        { s with kernel := { s.kernel with mach := ⟨Function.update s.kernel.mach.mem x b,s.kernel.mach.pmm⟩ } }
  | syscall {s s' : SysState} {c : Slot} {env : Env} {call : SysCall} : s.kernel.current = some c →
      (s.kernel.table c).isUser = true → afterCall K env s call = some s' → Step K s (.syscall env call) s'
  | tables {s : SysState} {fds : FdTable} {pipes : PipeTable} {screen : Bytes} :
      Step K s (.tables fds pipes screen) { s with fds := fds, pipes := pipes, screen := screen }

/-- A call that fills a buffer of its caller keeps to user pages of the caller's directory, no copy of the loader
leaves its frame, and no program has a page below 8 MB. -/
def Contained (s : SysState) : Event → Prop
  | .act a => Fits s.kernel a ∧ KeepsMap s.kernel a
  | .syscall env c => fills c = true → ∀ v ∈ touched env s c, UserMapped s.kernel.mach.mem s.kernel.cr3 v
  | .tables _ _ _ => True

/-- No kill names the user process that is running when it is made. -/
def Spared (s : SysState) : Event → Prop
  | .act a => Spares s.kernel a
  | .syscall _ (.kill pid) => Spares s.kernel (.call (.kill pid))
  | _ => True

/-- A run from `s`: its steps, each with the state it leads to. -/
inductive Trace (K : KernelLayout) : SysState → List (Event × SysState) → Prop
  | nil (s : SysState) : Trace K s []
  | cons {s s' : SysState} {e : Event} {rest : List (Event × SysState)} :
      Step K s e s' → Trace K s' rest → Trace K s ((e,s') :: rest)

/-- Every step of a run meets a condition in the state before it. -/
def Throughout (P : SysState → Event → Prop) : SysState → List (Event × SysState) → Prop
  | _,[] => True
  | s,(e,s') :: rest => P s e ∧ Throughout P s' rest

/-! ## What a call does to the processes -/

/-- A call leaves the processes alone, or performs one operation on them and does not touch memory itself. -/
def Performs (K : KernelLayout) (s : SysState) (c : SysCall) (m m' : Mem) (k' : Kernel) : Prop :=
  k' = s.kernel ∨ m' = m ∧ ∃ call, Direct call ∧ k' = call.apply K s.kernel ∧ ∀ pid, call = .kill pid → c = .kill pid

section Calls
variable {K : KernelLayout} {s : SysState} {c : SysCall} {tr : Translate} {m : Mem}

/-- A result that is packed up without changing the processes. -/
theorem performs_map {α : Type} {p : Prog α} {f : α → Reply × SysState} {r : Reply × SysState}
    (h : (run tr (p >>= fun a => pure (f a)) m).result = some r) (hf : ∀ a, (f a).2.kernel = s.kernel) :
    Performs K s c m (run tr (p >>= fun a => pure (f a)) m).mem r.2.kernel := by
  rcases @run_bind _ _ tr m p (fun a => pure (f a)) with ⟨_,he⟩ | ⟨a,_,he⟩
  · rw [he] at h
    cases h
  · rw [he] at h
    obtain rfl := Option.some.inj h
    exact Or.inl (hf a)

theorem performs_resumeRead {i : PipeId} {len buf : ℕ} {r : Reply × SysState}
    (h : (run tr (resumeRead K s i len buf) m).result = some r) :
    Performs K s c m (run tr (resumeRead K s i len buf) m).mem r.2.kernel := by
  unfold resumeRead at h ⊢
  dsimp only at h ⊢
  by_cases hempty : (s.pipes i).count = 0
  · rw [if_pos hempty] at h ⊢
    by_cases hopen : (!(s.pipes i).isOpen) = true
    · rw [if_pos hopen] at h ⊢
      obtain rfl := Option.some.inj h
      exact Or.inl rfl
    · rw [if_neg hopen] at h ⊢
      by_cases hc : s.kernel.current = none
      · rw [if_pos hc] at h ⊢
        obtain rfl := Option.some.inj h
        exact Or.inl rfl
      · rw [if_neg hc] at h ⊢
        obtain rfl := Option.some.inj h
        exact Or.inr ⟨rfl,.block,trivial,rfl,fun _ he => by cases he⟩
  · rw [if_neg hempty] at h ⊢
    exact performs_map h fun _ => rfl

theorem performs_none {r' r : Reply × SysState} {m' : Mem} (h : some r' = some r) (hk : r'.2.kernel = s.kernel) :
    Performs K s c m m' r.2.kernel := by
  obtain rfl := Option.some.inj h
  exact Or.inl hk

theorem performs_call {call : KernelCall} (hd : Direct call) (hkill : ∀ pid, call = .kill pid → c = .kill pid)
    {r' r : Reply × SysState} (h : some r' = some r) (hk : r'.2.kernel = call.apply K s.kernel) :
    Performs K s c m m r.2.kernel := by
  obtain rfl := Option.some.inj h
  exact Or.inr ⟨rfl,call,hd,hk,hkill⟩

theorem performs_handle {env : Env} {r : Reply × SysState} (h : (run tr (handle K env s c) m).result = some r) :
    Performs K s c m (run tr (handle K env s c) m).mem r.2.kernel := by
  cases c with
  | exit => exact @performs_call _ _ _ _ .exit trivial (fun _ he => by cases he) _ _ h rfl
  | yield => exact @performs_call _ _ _ _ .yield trivial (fun _ he => by cases he) _ _ h rfl
  | kill pid =>
    refine @performs_call _ _ _ _ (.kill pid) trivial (fun _ he => ?_) _ _ h rfl
    rw [KernelCall.kill.inj he]
  | write buf len => exact performs_map h fun _ => rfl
  | opens name => exact performs_map h fun _ => rfl
  | read fd len buf => exact performs_map h fun _ => rfl
  | pipeCreate =>
    rw [handle] at h ⊢
    generalize pipeAlloc s.pipes = a at h ⊢
    obtain ⟨_ | i,ps⟩ := a
    · exact performs_none h rfl
    · exact performs_none h rfl
  | pipeWrite id len buf =>
    have hmem : (run tr (handle K env s (.pipeWrite id len buf)) m).mem = m := (loadsOnly_handle K env s rfl).mem
    rw [hmem]
    rw [handle] at h
    cases hi : openIndex s.pipes id with
    | none =>
      rw [hi] at h
      exact performs_none h rfl
    | some i =>
      rw [hi] at h
      dsimp only at h
      rcases @run_bind _ _ tr m (pipeWriteLoop buf len 0 (s.pipes i)) _ with ⟨_,he⟩ | ⟨⟨written,p⟩,_,he⟩
      · rw [he] at h
        cases h
      · rw [he] at h
        by_cases hw : 0 < written
        · exact @performs_call _ _ _ _ .wakeAllBlocked trivial (fun _ he => by cases he) _ _ h (if_pos hw)
        · exact performs_none h (if_neg hw)
  | pipeRead id len buf =>
    rw [handle] at h ⊢
    cases hi : openIndex s.pipes id with
    | none =>
      rw [hi] at h
      exact performs_none h rfl
    | some i =>
      rw [hi] at h
      exact performs_resumeRead h
  | resume i len buf => exact performs_resumeRead h
  | _ => exact performs_none h rfl

end Calls

/-! ## One step -/

/-- Stores to the pages of a directory reach no directory and no table. -/
theorem separated_pagesOnly {K : KernelLayout} {mach : Machine} {live : List ℕ} {d : ℕ} (h : Separated K mach live)
    (hd : d ∈ live) {m' : Mem} (hm : PagesOnly mach.mem d m') : Separated K ⟨m',mach.pmm⟩ live := by
  have hkernel : ∀ f, KernelFrame mach.mem live f → SameFrame mach.mem m' f :=
    fun f hf => hm f (kernelFrame_not_page h hd hf)
  refine h.untouched (hkernel _ (Or.inl K.directory_low)) fun d' hd' => ⟨?_,fun i t ht => ?_⟩
  · exact hkernel d' (Or.inr ⟨d',hd',Or.inl rfl⟩)
  · exact hkernel t (Or.inr ⟨d',hd',Or.inr ⟨i,ht⟩⟩)

theorem setMem_eq (k : Kernel) (m : Mem) (h : k.mach.mem = m) : { k with mach := ⟨m,k.mach.pmm⟩ } = k := by
  rw [← h]

/-- A contained call changes nothing in memory but pages of its caller. -/
theorem contained_pagesOnly {K : KernelLayout} {s : SysState} {live : List ℕ} {d : ℕ} {c : Slot}
    (h : Caller K s live d c) {env : Env} {call : SysCall} (hc : Contained s (.syscall env call)) :
    PagesOnly s.kernel.mach.mem d (outcome K env s call).mem := by
  obtain ⟨hiff,hconf,hmem,-⟩ := syscall_pointers K env s live d c h call
  cases hfills : fills call with
  | false =>
    rw [hmem hfills]
    exact fun f _ => SameFrame.refl _ f
  | true =>
    have htouched := hc hfills
    rw [h.cr3] at htouched
    exact (hconf (hiff.mpr htouched)).2.1

section Steps
variable {K : KernelLayout} {s s' : SysState} (h : Inv K s.kernel)
include h

theorem inv_syscall {c : Slot} {env : Env} {call : SysCall} (hcur : s.kernel.current = some c)
    (hu : (s.kernel.table c).isUser = true) (hafter : afterCall K env s call = some s')
    (hc : Contained s (.syscall env call)) (hs : Spared s (.syscall env call)) : Inv K s'.kernel := by
  obtain ⟨live,hsp⟩ := h.spaces
  obtain ⟨d,hcaller⟩ := caller_of_inv h hsp hcur hu
  have hpages := contained_pagesOnly hcaller hc
  obtain ⟨r,hr,rfl⟩ := Option.map_eq_some_iff.mp hafter
  dsimp only
  have hperf : Performs K s call s.kernel.mach.mem (outcome K env s call).mem r.2.kernel := performs_handle hr
  rcases hperf with hk | ⟨hm,op,hd,hk,hkill⟩
  · rw [hk]
    exact h.setMach _ hsp (separated_pagesOnly hsp.separated hcaller.dir hpages)
  · rw [hm,hk,setMem_eq _ _ (apply_mem K s.kernel op)]
    apply h.apply hd
    cases op with
    | kill pid =>
      rw [hkill pid rfl] at hs
      exact hs
    | _ => trivial

theorem not_overrun {file : Option Image} (hfits : Fits s.kernel (.exec file)) : cmdExec K file s.kernel ≠ .overrun := by
  obtain ⟨live,hsp⟩ := h.spaces
  intro he
  cases file with
  | none => cases he
  | some img =>
    rcases cmdExec_cases hsp.separated img with ⟨_,hr⟩ | ⟨d,q,ht,⟨ho,_⟩ | ⟨_,_,_,⟨_,hr,_⟩ | ⟨_,_,hr,_⟩⟩⟩
    · rw [hr] at he
      cases he
    · have hcount := ht.count
      exact hfits (by omega) ho
    · rw [hr] at he
      cases he
    · rw [hr] at he
      cases he

theorem inv_step {e : Event} (hstep : Step K s e s') (hc : Contained s e) (hs : Spared s e) : Inv K s'.kernel := by
  cases hstep with
  | returned he => exact h.exec_returned he
  | spawned he => exact h.exec_spawned he
  | overrun he => exact absurd he (not_overrun h hc.1)
  | call hd => exact h.apply hd hs
  | store hcur hu hx => exact h.store _ hcur hu hx
  | syscall hcur hu hafter => exact inv_syscall h hcur hu hafter hc hs
  | tables => exact h

/-- The first 8 MB stay mapped to themselves. -/
theorem identity_step {e : Event} (hid : IdentityMapped K s.kernel.mach.mem) (hstep : Step K s e s')
    (hc : Contained s e) : IdentityMapped K s'.kernel.mach.mem := by
  obtain ⟨live,hsp⟩ := h.spaces
  cases hstep with
  | @returned k' file he => exact (cmdExec_identity hsp.separated hid hc.2).1 k' he
  | @spawned k' file i he =>
    dsimp only
    rw [processYield_mach]
    exact (cmdExec_identity hsp.separated hid hc.2).2 i k' he
  | overrun he => exact absurd he (not_overrun h hc.1)
  | call _ =>
    dsimp only
    rw [apply_mem]
    exact hid
  | @store c x i j b hcur hu hx =>
    obtain ⟨d,hcaller⟩ := caller_of_inv h hsp hcur hu
    rw [hcaller.cr3,Nat.mul_div_cancel_left d (by decide)] at hx
    exact identity_store hsp.separated hid hcaller.dir b hx
  | syscall hcur hu hafter =>
    obtain ⟨d,hcaller⟩ := caller_of_inv h hsp hcur hu
    obtain ⟨r,_,rfl⟩ := Option.map_eq_some_iff.mp hafter
    exact identity_pages hsp.separated hid hcaller.dir (contained_pagesOnly hcaller hc)
  | tables => exact hid

/-- A kill of the running user process, by itself or by other code, leaves it without a directory. -/
theorem unsafe_of_not_spared {e : Event} (hstep : Step K s e s') (hc : Contained s e) (hs : ¬ Spared s e) :
    ¬ UserSafe s'.kernel := by
  cases hstep with
  | returned he => exact absurd trivial hs
  | spawned he => exact absurd trivial hs
  | overrun he => exact absurd he (not_overrun h hc.1)
  | store hcur hu hx => exact absurd trivial hs
  | tables => exact absurd trivial hs
  | @call call hd =>
    cases call with
    | kill pid => exact h.own_kill hs
    | _ => exact absurd trivial hs
  | @syscall _ c env call hcur hu hafter =>
    cases call with
    | kill pid =>
      obtain rfl := Option.some.inj hafter
      have hkill := h.own_kill hs
      rw [← setMem_eq (processKill pid s.kernel).2 s.kernel.mach.mem (apply_mem K s.kernel (.kill pid))] at hkill
      exact hkill
    | _ => exact absurd trivial hs

end Steps

/-! ## Whole runs -/

theorem trace_safe_iff {K : KernelLayout} {s : SysState} {tr : List (Event × SysState)} (h : Inv K s.kernel)
    (ht : Trace K s tr) (hc : Throughout Contained s tr) :
    (∀ p ∈ tr, UserSafe p.2.kernel) ↔ Throughout Spared s tr := by
  induction ht with
  | nil s => exact iff_of_true (fun _ hp => absurd hp List.not_mem_nil) trivial
  | @cons s s' e rest hstep _ ih =>
    by_cases hs : Spared s e
    · have hnext := inv_step h hstep hc.1 hs
      rw [List.forall_mem_cons,and_iff_right hnext.safe,ih hnext hc.2]
      exact (and_iff_right hs).symm
    · refine iff_of_false (fun hall => ?_) (fun hsp => hs hsp.1)
      exact unsafe_of_not_spared h hstep hc.1 hs (hall (e,s') List.mem_cons_self)

theorem trace_identityMapped {K : KernelLayout} {s : SysState} {tr : List (Event × SysState)} (h : Inv K s.kernel)
    (hid : IdentityMapped K s.kernel.mach.mem) (ht : Trace K s tr) (hc : Throughout Contained s tr)
    (hs : Throughout Spared s tr) : ∀ p ∈ tr, IdentityMapped K p.2.kernel.mach.mem := by
  induction ht with
  | nil s => exact fun _ hp => absurd hp List.not_mem_nil
  | @cons s s' e rest hstep _ ih =>
    have hnext := identity_step h hid hstep hc.1
    exact List.forall_mem_cons.mpr ⟨hnext,ih (inv_step h hstep hc.1 hs.1) hnext hc.2 hs.2⟩

/-- The system after boot. -/
def booted (K : KernelLayout) (m : Mem) (mmap : BootMmap) (old : Slot → Proc) : SysState :=
  ⟨processInit K ⟨pagingInit K m,pmmInit mmap⟩ old,FileDescriptors.fdInit,pipeInit,[]⟩

/-- In every run from boot whose calls keep to the pages of their callers and whose programs fit, ring 3 always runs on
its own directory with all frames in use exactly when no kill names the user process that runs. Then the kernel's
pointers are physical addresses all the time. -/
theorem user_space_safe_iff (K : KernelLayout) (m : Mem) (mmap : BootMmap) (old : Slot → Proc)
    (tr : List (Event × SysState)) (ht : Trace K (booted K m mmap old) tr)
    (hc : Throughout Contained (booted K m mmap old) tr) :
    ((∀ p ∈ tr, UserSafe p.2.kernel) ↔ Throughout Spared (booted K m mmap old) tr) ∧
    (Throughout Spared (booted K m mmap old) tr → ∀ p ∈ tr, IdentityMapped K p.2.kernel.mach.mem) :=
  ⟨trace_safe_iff (inv_processInit K m mmap old) ht hc,
    trace_identityMapped (inv_processInit K m mmap old) (pagingInit_identityMapped K m) ht hc⟩

/-! ## A program that reads a pipe, and one that kills itself -/

def bootedSys : SysState := ⟨bootedKernel,FileDescriptors.fdInit,pipeInit,[]⟩

/-- One pipe with the byte `0xAB` in it. -/
def filledPipes : PipeTable := (pipeWrite 0 [0xAB] (pipeAlloc pipeInit).2).2

/-- The program of `userImage` after the idle process. -/
theorem program_runs : ∃ s₁ s₂ c d g, Step sampleLayout bootedSys (.act (.exec (some userImage))) s₁ ∧
    Step sampleLayout s₁ (.act (.call .yield)) s₂ ∧ Inv sampleLayout s₂.kernel ∧ s₂.kernel.current = some c ∧
    (s₂.kernel.table c).isUser = true ∧ (s₂.kernel.table c).pid = 2 ∧ (s₂.kernel.table c).pdPhys = 4096*d ∧
    Maps s₂.kernel.mach.mem d 0x1000000 g := by
  obtain ⟨k₁,d,g,he,hcur,hu,hpid,hpd,hg⟩ := exec_userImage
  have h₀ : Inv sampleLayout bootedSys.kernel := inv_processInit sampleLayout _ _ _
  have h₁ : Inv sampleLayout (processYield sampleLayout k₁) := h₀.exec_spawned he
  exact ⟨{ bootedSys with kernel := processYield sampleLayout k₁ },
    { bootedSys with kernel := processYield sampleLayout (processYield sampleLayout k₁) },1,d,g,.spawned he,
    @Step.call _ _ .yield trivial,@Inv.apply _ _ .yield h₁ trivial trivial,hcur,hu,hpid,hpd,hg⟩

theorem contained_userImage : Contained bootedSys (.act (.exec (some userImage))) := by
  have hfree : freeCount bootedSys.kernel.mach.pmm = 7936 := bootedSystem_freeCount
  have hloaded : (plan userImage ⟨7935,{0,1}⟩).ending.result userImage = some 0x1000000 := by decide +kernel
  have hpages : (plan userImage ⟨7935,{0,1}⟩).pages = [0x1000000] := by decide +kernel
  constructor
  · intro _ hover
    rw [hfree] at hover
    rw [hover] at hloaded
    cases hloaded
  · intro v hv
    rw [hfree,hpages] at hv
    obtain rfl := List.mem_singleton.mp hv
    decide

/-- `SYS_PIPE_READ` into the page of the program. -/
theorem user_space_safe_pipeRead : ∃ tr, Trace sampleLayout bootedSys tr ∧
    tr.map Prod.fst = [.act (.exec (some userImage)),.act (.call .yield),
      .tables FileDescriptors.fdInit filledPipes [],.syscall idleEnv (decode ⟨12,0,1,0x1000000⟩)] ∧
    (∀ p ∈ tr, UserSafe p.2.kernel) ∧ ∀ p ∈ tr, IdentityMapped sampleLayout p.2.kernel.mach.mem := by
  obtain ⟨s₁,s₂,c,d,g,hexec,hyield,hinv,hcur,hu,-,hpd,hg⟩ := program_runs
  let s₃ : SysState := { s₂ with fds := FileDescriptors.fdInit, pipes := filledPipes, screen := [] }
  have hinv₃ : Inv sampleLayout s₃.kernel := hinv
  obtain ⟨live,hsp⟩ := hinv₃.spaces
  obtain ⟨d',hcaller⟩ := caller_of_inv hinv₃ hsp hcur hu
  obtain rfl : d' = d := by
    have he := hcaller.pdPhys.symm.trans hpd
    omega
  have hpage : ∀ v ∈ touched idleEnv s₃ (decode ⟨12,0,1,0x1000000⟩), UserMapped s₃.kernel.mach.mem (4096*d') v := by
    intro v hv
    obtain ⟨j,hj,rfl⟩ := mem_span.mp (show v ∈ span 0x1000000 1 from hv)
    exact userMapped_of_maps hsp.separated hcaller.dir hg (by decide) (Nat.mod_lt _ (by decide)) (by omega)
  have hcontained : Contained s₃ (.syscall idleEnv (decode ⟨12,0,1,0x1000000⟩)) := by
    intro _
    rw [hcaller.cr3]
    exact hpage
  obtain ⟨hiff,hconf,-⟩ := syscall_pointers sampleLayout idleEnv s₃ live d' c hcaller (decode ⟨12,0,1,0x1000000⟩)
  obtain ⟨r,hr⟩ := Option.isSome_iff_exists.mp (hconf (hiff.mpr hpage)).1
  have hafter := congrArg (Option.map fun r : Reply × SysState => { r.2 with kernel := { r.2.kernel with
    mach := ⟨(outcome sampleLayout idleEnv s₃ (decode ⟨12,0,1,0x1000000⟩)).mem,r.2.kernel.mach.pmm⟩ } }) hr
  have ht := Trace.cons hexec (.cons hyield (.cons (@Step.tables _ s₂ FileDescriptors.fdInit filledPipes [])
    (.cons (.syscall hcur hu hafter) (.nil _))))
  have hall := user_space_safe_iff sampleLayout _ _ _ _ ht ⟨contained_userImage,⟨trivial,trivial⟩,trivial,hcontained,
    trivial⟩
  exact ⟨_,ht,rfl,hall.1.mpr ⟨trivial,trivial,trivial,trivial,trivial⟩,hall.2 ⟨trivial,trivial,trivial,trivial,trivial⟩⟩

/-- `SYS_KILL` with the caller's own PID: back in ring 3 the process has no directory. -/
theorem own_kill_unsafe : ∃ tr, Trace sampleLayout bootedSys tr ∧
    tr.map Prod.fst = [.act (.exec (some userImage)),.act (.call .yield),.syscall idleEnv (decode ⟨5,2,0,0⟩)] ∧
    ∃ p ∈ tr, ¬ UserSafe p.2.kernel := by
  obtain ⟨s₁,s₂,c,d,g,hexec,hyield,hinv,hcur,hu,hpid,-⟩ := program_runs
  have hkill : Step sampleLayout s₂ (.syscall idleEnv (decode ⟨5,2,0,0⟩)) _ := .syscall hcur hu rfl
  refine ⟨_,.cons hexec (.cons hyield (.cons hkill (.nil _))),rfl,_,List.mem_cons_of_mem _ (List.mem_cons_of_mem _
    List.mem_cons_self),?_⟩
  exact unsafe_of_not_spared hinv hkill (fun hf => by cases hf) fun hsp => hsp c hcur hu hpid

end VesperOS.UserSpace
