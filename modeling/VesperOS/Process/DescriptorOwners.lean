import VesperOS.Process.TableInvariant
import VesperOS.FileSystem.FileDescriptors

/-! # Owners of descriptors

`fd.c` knows a process by its PID only, and `process_exit` and `process_kill` do not
tell it that a process ended. The descriptors of a process that ends stay in the
table, where nobody can close them. Runs mix the calls of `process.h` with the three
system calls on descriptors, on any disk and with any faults of the drive.
-/
namespace VesperOS.DescriptorOwners
open Paging ProcessTable Scheduler ContextSwitch TableInvariant DiskProgram FaultPattern VesperFs DiskVolume
  FileDescriptors SpaceLifecycle

/-- The process table and the descriptor table. -/
structure Sys where
  kernel : Kernel
  fds : FdTable

/-- The PID that `syscall_handler` passes on. -/
def callerPid (k : Kernel) : ℕ :=
  match k.current with
  | none => 0
  | some c => (k.table c).pid

/-- The drive as one system call finds it. -/
structure Medium where
  drive : Drive
  fails : ℕ → Bool
  disk : Disk Sector

def Medium.exec {α : Type} (m : Medium) (p : FsProg α) : α := (faultyRun m.drive m.fails p 0 m.disk).result

inductive Event where
  | kernel (call : KernelCall)
  | opens (name : Bytes) (m : Medium)
  | read (fd : ℤ) (len : ℕ) (m : Medium)
  | close (fd : ℤ)
  /-- The loader, or a program, writes to memory. -/
  | memory (mach : Machine)

def Event.apply (K : KernelLayout) (s : Sys) : Event → Sys
  | .kernel call => { s with kernel := call.apply K s.kernel }
  | .opens name m => { s with fds := (m.exec (fdOpen name (callerPid s.kernel) s.fds)).2 }
  | .read fd len m => { s with fds := (m.exec (fdRead fd len (callerPid s.kernel) s.fds)).2.2 }
  | .close fd => { s with fds := fdClose fd (callerPid s.kernel) s.fds }
  | .memory mach => { s with kernel := { s.kernel with mach := mach } }

def run (K : KernelLayout) (s : Sys) (events : List Event) : Sys := events.foldl (Event.apply K) s

/-- `process_init` and `fd_init`. -/
def boot (K : KernelLayout) (mach : Machine) (old : Slot → Proc) : Sys := ⟨processInit K mach old,fdInit⟩

/-- A process-table slot that is neither UNUSED nor ZOMBIE has this PID. -/
def Live (k : Kernel) (pid : ℕ) : Prop :=
  ∃ i, (k.table i).pid = pid ∧ (k.table i).state ≠ .unused ∧ (k.table i).state ≠ .zombie

instance (k : Kernel) (pid : ℕ) : Decidable (Live k pid) := inferInstanceAs (Decidable (∃ i,
  (k.table i).pid = pid ∧ (k.table i).state ≠ .unused ∧ (k.table i).state ≠ .zombie))

/-- The boot context has PID 0. -/
def OwnersLive (s : Sys) : Prop := ∀ i, (s.fds i).used = true → (s.fds i).pid = 0 ∨ Live s.kernel (s.fds i).pid

/-- Some used descriptor carries this PID. -/
def HoldsFd (s : Sys) (pid : ℕ) : Prop := ∃ i, (s.fds i).used = true ∧ (s.fds i).pid = pid

/-- A process is terminated only without descriptors, and once terminated it opens none. -/
def Event.Meets (s : Sys) : Event → Prop
  | .kernel .exit => ∀ c, s.kernel.current = some c → ¬ HoldsFd s (s.kernel.table c).pid
  | .kernel (.kill pid) => ∀ c, killSlot pid s.kernel = some c → ¬ HoldsFd s pid
  | .opens _ _ => ∀ c, s.kernel.current = some c → ¬ Zombie s.kernel c
  | _ => True

/-- Every event of a run meets the condition in the state it finds. -/
def AllMeet (K : KernelLayout) : Sys → List Event → Prop
  | _, [] => True
  | s, e :: events => e.Meets s ∧ AllMeet K (e.apply K s) events

/-! ## The process table -/

theorem apply_pid {k : Kernel} (h : StacksOwned k) (K : KernelLayout) (call : KernelCall) {i : Slot}
    (hi : (k.table i).state ≠ .unused) : ((call.apply K k).table i).pid = (k.table i).pid := by
  have hcreate : ∀ isUser userEip userEsp pdPhys,
      ((createProc isUser userEip userEsp pdPhys k).2.table i).pid = (k.table i).pid := by
    intro isUser userEip userEsp pdPhys
    rcases createProc_cases isUser userEip userEsp pdPhys k with he | ⟨j,p,n,hj,_,_,he⟩
    · rw [he]
    · have hne : i ≠ j := by
        rintro rfl
        exact hi hj
      rw [he]
      simp [Kernel.setProc,hne]
  cases hy : call.yieldPoint k with
  | some k₀ => rw [apply_yieldPoint hy,processYield_pid,(samePids_yieldPoint h hy).pid]
  | none =>
    cases call with
    | create => exact hcreate _ _ _ _
    | createUser userEip userEsp pdPhys => exact hcreate _ _ _ _
    | kill pid => exact (samePids_kill pid k).pid i
    | wake p => exact (samePids_wake p k).pid i
    | wakeAllBlocked => exact (samePids_wakeAllBlocked k).pid i
    | _ => cases hy

/-- Only `process_exit` and `process_kill` end a process. -/
theorem Live.apply {k : Kernel} {pid : ℕ} (h : Live k pid) (hs : StacksOwned k) (K : KernelLayout) {call : KernelCall}
    (hexit : call = .exit → ∀ c, k.current = some c → (k.table c).pid ≠ pid)
    (hkill : ∀ q, call = .kill q → ∀ c, killSlot q k = some c → q ≠ pid) : Live (call.apply K k) pid := by
  obtain ⟨i,hp,hu,hz⟩ := h
  refine ⟨i,(apply_pid hs K call hu).trans hp,?_⟩
  cases apply_state K k call i with
  | same he =>
    rw [he]
    exact ⟨hu,hz⟩
  | runs hr => rcases hr with he | he <;> rw [he] <;> exact ⟨by decide,by decide⟩
  | blocks he _ _ =>
    rw [he]
    exact ⟨by decide,by decide⟩
  | exits _ hc hcur => exact absurd hp (hexit hc i hcur)
  | killed q _ hc hslot =>
    have hi := killSlot_spec hslot
    exact absurd (hi.1.symm.trans hp) (hkill q hc i hslot)

theorem live_caller {k : Kernel} (hs : StacksOwned k) (hz : ∀ c, k.current = some c → ¬ Zombie k c) :
    callerPid k = 0 ∨ Live k (callerPid k) := by
  unfold callerPid
  cases hc : k.current with
  | none => exact Or.inl rfl
  | some c => exact Or.inr ⟨c,rfl,hs.used c hc,hz c hc⟩

/-! ## The descriptor table -/

/-- Every used entry was used before under the same PID, or is new under `pid`. -/
def Grown (pid : ℕ) (t t' : FdTable) : Prop :=
  ∀ i, (t' i).used = true → ((t i).used = true ∧ (t' i).pid = (t i).pid) ∨ (t' i).pid = pid

/-- Every used entry was used before under the same PID. -/
def Shrunk (t t' : FdTable) : Prop := ∀ i, (t' i).used = true → (t i).used = true ∧ (t' i).pid = (t i).pid

theorem Shrunk.refl (t : FdTable) : Shrunk t t := fun _ hi => ⟨hi,rfl⟩

theorem fdOpen_grown (m : Medium) (name : Bytes) (pid : ℕ) (t : FdTable) :
    Grown pid t (m.exec (fdOpen name pid t)).2 := by
  have hsame : Grown pid t t := fun i hi => Or.inl ⟨hi,rfl⟩
  unfold Medium.exec fdOpen
  cases freeSlot t with
  | none => exact hsame
  | some j =>
    dsimp only
    rw [faultyRun_bind]
    split
    · exact hsame
    · intro i hi
      rw [faultyRun_pure] at hi ⊢
      dsimp only at hi ⊢
      by_cases hij : i = j
      · subst hij
        right
        rw [Function.update_self]
      · rw [Function.update_of_ne hij] at hi ⊢
        exact Or.inl ⟨hi,rfl⟩

theorem fdRead_shrunk (m : Medium) (fd : ℤ) (len pid : ℕ) (t : FdTable) :
    Shrunk t (m.exec (fdRead fd len pid t)).2.2 := by
  unfold Medium.exec fdRead
  cases fdIndex fd with
  | none => exact Shrunk.refl t
  | some j =>
    dsimp only
    split
    · exact Shrunk.refl t
    · intro i hi
      rw [faultyRun_bind,faultyRun_pure] at hi ⊢
      dsimp only at hi ⊢
      by_cases hij : i = j
      · subst hij
        rw [Function.update_self] at hi ⊢
        exact ⟨hi,rfl⟩
      · rw [Function.update_of_ne hij] at hi ⊢
        exact ⟨hi,rfl⟩

theorem fdClose_shrunk (fd : ℤ) (pid : ℕ) (t : FdTable) : Shrunk t (fdClose fd pid t) := by
  unfold fdClose
  cases fdIndex fd with
  | none => exact Shrunk.refl t
  | some j =>
    dsimp only
    split
    · exact Shrunk.refl t
    · intro i hi
      by_cases hij : i = j
      · subst hij
        rw [Function.update_self] at hi
        cases hi
      · rw [Function.update_of_ne hij] at hi ⊢
        exact ⟨hi,rfl⟩

theorem OwnersLive.shrink {s : Sys} (h : OwnersLive s) {t : FdTable} (ht : Shrunk s.fds t) :
    OwnersLive { s with fds := t } := by
  intro i hi
  obtain ⟨hu,hp⟩ := ht i hi
  have hlive := h i hu
  rw [← hp] at hlive
  exact hlive

/-! ## Runs -/

theorem ownersLive_apply {s : Sys} (h : OwnersLive s) (hs : StacksOwned s.kernel) (K : KernelLayout) {e : Event}
    (hm : e.Meets s) : OwnersLive (e.apply K s) := by
  cases e with
  | kernel call =>
    intro i hi
    refine (h i hi).imp_right fun hlive => hlive.apply hs K ?_ ?_
    · rintro rfl c hc hp
      exact hm c hc ⟨i,hi,hp.symm⟩
    · rintro pid rfl c hc hp
      exact hm c hc ⟨i,hi,hp.symm⟩
  | opens name m =>
    intro i hi
    rcases fdOpen_grown m name (callerPid s.kernel) s.fds i hi with ⟨hu,hp⟩ | hp
    · have hlive := h i hu
      rw [← hp] at hlive
      exact hlive
    · have hlive := live_caller hs hm
      rw [← hp] at hlive
      exact hlive
  | read fd len m => exact h.shrink (fdRead_shrunk m fd len _ s.fds)
  | close fd => exact h.shrink (fdClose_shrunk fd _ s.fds)
  | memory mach => exact h

theorem stacksOwned_apply {s : Sys} (hs : StacksOwned s.kernel) (K : KernelLayout) (e : Event) :
    StacksOwned (e.apply K s).kernel := by
  cases e with
  | kernel call => exact hs.apply K call
  | memory mach => exact ⟨hs.saved,hs.idle,hs.onStack,hs.used,hs.running⟩
  | _ => exact hs

theorem ownersLive_run {K : KernelLayout} {s : Sys} (h : OwnersLive s) (hs : StacksOwned s.kernel)
    {events : List Event} (hm : AllMeet K s events) : OwnersLive (run K s events) := by
  induction events generalizing s with
  | nil => exact h
  | cons e events ih => exact ih (ownersLive_apply h hs K hm.1) (stacksOwned_apply hs K e) hm.2

theorem AllMeet.left {K : KernelLayout} {s : Sys} {pre post : List Event} (h : AllMeet K s (pre++post)) :
    AllMeet K s pre := by
  induction pre generalizing s with
  | nil => trivial
  | cons e pre ih => exact ⟨h.1,ih h.2⟩

/-- `fd_open` finds no entry only when all are held by live processes. -/
theorem full_of_ownersLive {s : Sys} (h : OwnersLive s) (hfull : freeSlot s.fds = none) (i : Fin fdMax) :
    (s.fds i).used = true ∧ ((s.fds i).pid = 0 ∨ Live s.kernel (s.fds i).pid) := by
  have hused : (s.fds i).used = true := by
    have hi := List.find?_eq_none.mp hfull i (List.mem_finRange i)
    simpa using hi
  exact ⟨hused,h i hused⟩

/-- While processes are terminated only without descriptors, and open none once terminated, every state reached has
live owners only, and a full table is full of their descriptors. -/
theorem descriptors_end_with_owners (K : KernelLayout) (mach : Machine) (old : Slot → Proc) (pre post : List Event)
    (hm : AllMeet K (boot K mach old) (pre++post)) :
    OwnersLive (run K (boot K mach old) pre) ∧
      (freeSlot (run K (boot K mach old) pre).fds = none → ∀ i, ((run K (boot K mach old) pre).fds i).used = true ∧
        (((run K (boot K mach old) pre).fds i).pid = 0 ∨
          Live (run K (boot K mach old) pre).kernel ((run K (boot K mach old) pre).fds i).pid)) := by
  have hboot : OwnersLive (boot K mach old) := fun _ hi => (Bool.false_ne_true hi).elim
  have hlive := ownersLive_run hboot (stacksOwned_processInit K mach old) hm.left
  exact ⟨hlive,full_of_ownersLive hlive⟩

/-- A user process with a directory of its own is created and scheduled, after the idle process, and opens the file
`a`. -/
def opensFile : List Event :=
  [.memory oneDirectory.mach,.kernel (.createUser 0x1000000 0x1020000 0x100000),.kernel .yield,
    .kernel .yield,.opens [0x61] ⟨FaultyTransfers.ataDrive,fun _ => false,sampleVolume⟩]

def bootedSys : Sys := boot sampleLayout bootedSystem.mach fun _ => ⟨⟨none,0⟩,0,.unused,0,false,0,0⟩

/-- It closes the file and exits. -/
theorem descriptors_end_with_owners_sample :
    OwnersLive (run sampleLayout bootedSys (opensFile++[.close 0,.kernel .exit])) := by
  have hrun : (run sampleLayout bootedSys (opensFile.take 4)).kernel.current = some 1 := by decide +kernel
  have hst : ((run sampleLayout bootedSys (opensFile.take 4)).kernel.table 1).state ≠ .zombie := by decide +kernel
  have hnone : ∀ i, ((run sampleLayout bootedSys (opensFile++[.close 0])).fds i).used = false := by decide +kernel
  have hmeet : AllMeet sampleLayout bootedSys (opensFile++[.close 0,.kernel .exit]) := by
    refine ⟨trivial,trivial,trivial,trivial,?_,trivial,?_,trivial⟩
    · intro c hc hz
      obtain rfl : 1 = c := Option.some.inj (hrun.symm.trans hc)
      exact hst hz
    · rintro c _ ⟨i,hi,_⟩
      exact Bool.false_ne_true ((hnone i).symm.trans hi)
  rw [← List.append_nil (opensFile++_)] at hmeet
  exact (descriptors_end_with_owners sampleLayout bootedSystem.mach _ _ [] hmeet).1

/-- It exits without closing the file. -/
theorem exited_owner : ¬ ∀ (K : KernelLayout) (mach : Machine) (old : Slot → Proc) (events : List Event),
    OwnersLive (run K (boot K mach old) events) := by
  intro h
  have hlive : OwnersLive (run sampleLayout bootedSys (opensFile++[.kernel .exit])) := h _ _ _ _
  have hused : ((run sampleLayout bootedSys (opensFile++[.kernel .exit])).fds ⟨0,by decide⟩).used = true := by
    decide +kernel
  have hpid : ((run sampleLayout bootedSys (opensFile++[.kernel .exit])).fds ⟨0,by decide⟩).pid = 2 := by
    decide +kernel
  have hdead : ¬ Live (run sampleLayout bootedSys (opensFile++[.kernel .exit])).kernel 2 := by decide +kernel
  rcases hlive _ hused with h0 | hl
  · rw [hpid] at h0
    cases h0
  · rw [hpid] at hl
    exact hdead hl

end VesperOS.DescriptorOwners
