import VesperOS.Loader.KernelIsolation
import VesperOS.Process.TableInvariant

/-! # The loaded address space

What `cmd_exec`, the operations on processes and stores of user code do to CR3 and to
the frames reached through it. Where a user process is current it may run in ring 3, and
CR3 has to hold its directory there, with every frame reachable through it in use.
-/
namespace VesperOS.LoadedSpace
open ByteMemory FrameAllocator Paging AddressSpaces Translation ElfImage LoadPlan ProcessTable Scheduler ContextSwitch
open TableInvariant Exec SpaceLifecycle KernelIsolation

inductive Act where
  | exec (file : Option Image)
  | call (call : KernelCall)
  | store (x : ℕ) (b : UInt8)

/-- User processes are only created by `cmd_exec`. -/
def Direct : KernelCall → Prop
  | .createUser _ _ _ => False
  | _ => True

/-- No copy of the loader leaves its frame. -/
def Fits (k : Kernel) : Act → Prop
  | .exec (some img) => freeCount k.mach.pmm ≠ 0 → (plan img ⟨freeCount k.mach.pmm-1,{0,1}⟩).ending ≠ .overrun
  | _ => True

/-- No segment page lies below 8 MB, where the tables are the kernel's own. -/
def KeepsMap (k : Kernel) : Act → Prop
  | .exec (some img) => ∀ v ∈ (plan img ⟨freeCount k.mach.pmm-1,{0,1}⟩).pages, 0x800000 ≤ v
  | _ => True

/-- In ring 3 the loaded directory is the one of the process, and whatever it reaches is in use. -/
def UserSafe (k : Kernel) : Prop :=
  ∀ c, k.current = some c → (k.table c).isUser = true →
    (k.table c).pdPhys ≠ 0 ∧ k.cr3 = (k.table c).pdPhys ∧
      ∀ r f, Holds k.mach.mem (k.cr3/4096) r f → pmmIsUsed k.mach.pmm f = true

/-- A kill does not name the user process that is running. -/
def Spares (k : Kernel) : Act → Prop
  | .call (.kill pid) => ∀ c, k.current = some c → (k.table c).isUser = true → (k.table c).pid ≠ pid
  | _ => True

/-! ## Directories and slots -/

structure Spaces (K : KernelLayout) (k : Kernel) (live : List ℕ) : Prop where
  separated : Separated K k.mach live
  dir : ∀ i, (k.table i).pdPhys ≠ 0 → ∃ d ∈ live, (k.table i).pdPhys = 4096*d
  own : ∀ i j, (k.table i).pdPhys ≠ 0 → (k.table i).pdPhys = (k.table j).pdPhys → i = j
  user : ∀ i, (k.table i).isUser = true → (k.table i).state ≠ .unused → (k.table i).state ≠ .zombie →
    (k.table i).pdPhys ≠ 0
  thread : ∀ i, (k.table i).isUser = false → (k.table i).pdPhys = 0
  dead : ∀ i, (k.table i).state = .zombie → (k.table i).pdPhys = 0
  idle : (k.table 0).isUser = false

/-- CR3 belongs to the current process, which is not a terminated user process. -/
structure Loaded (K : KernelLayout) (k : Kernel) : Prop where
  alive : ∀ c, k.current = some c → (k.table c).isUser = true → (k.table c).state ≠ .zombie
  cr3 : ∀ c, k.current = some c → k.cr3 = if (k.table c).pdPhys ≠ 0 then (k.table c).pdPhys else K.pageDirectory

theorem userSafe_of_loaded {K : KernelLayout} {k : Kernel} {live : List ℕ} (h : Spaces K k live) (hl : Loaded K k)
    (hs : StacksOwned k) : UserSafe k := by
  intro c hc hu
  have hpd := h.user c hu (hs.used c hc) (hl.alive c hc hu)
  have hcr3 := hl.cr3 c hc
  rw [if_pos hpd] at hcr3
  refine ⟨hpd,hcr3,?_⟩
  obtain ⟨d,hd,he⟩ := h.dir c hpd
  intro r f hf
  rw [hcr3,he,Nat.mul_div_cancel_left d (by decide)] at hf
  exact h.separated.used hd hf

/-- Only states change, no slot becomes a zombie or is taken from UNUSED, and no terminated user process returns. -/
structure Relabelled (k k' : Kernel) : Prop where
  mach : k'.mach = k.mach
  pdPhys : ∀ i, (k'.table i).pdPhys = (k.table i).pdPhys
  isUser : ∀ i, (k'.table i).isUser = (k.table i).isUser
  state : ∀ i, (k'.table i).state = (k.table i).state ∨ ((k'.table i).state ≠ .zombie ∧
    ((k.table i).isUser = true → (k.table i).state ≠ .unused ∧ (k.table i).state ≠ .zombie))

theorem Relabelled.refl (k : Kernel) : Relabelled k k := ⟨rfl,fun _ => rfl,fun _ => rfl,fun _ => Or.inl rfl⟩

theorem Spaces.relabel {K : KernelLayout} {k k' : Kernel} {live : List ℕ} (h : Spaces K k live)
    (hr : Relabelled k k') : Spaces K k' live := by
  constructor
  · rw [hr.mach]
    exact h.separated
  · intro i hi
    rw [hr.pdPhys] at hi ⊢
    exact h.dir i hi
  · intro i j hi he
    rw [hr.pdPhys] at hi he
    rw [hr.pdPhys] at he
    exact h.own i j hi he
  · intro i hu h1 h2
    rw [hr.isUser] at hu
    rw [hr.pdPhys]
    rcases hr.state i with he | ⟨_,hlive⟩
    · rw [he] at h1 h2
      exact h.user i hu h1 h2
    · exact h.user i hu (hlive hu).1 (hlive hu).2
  · intro i hu
    rw [hr.isUser] at hu
    rw [hr.pdPhys]
    exact h.thread i hu
  · intro i hz
    rw [hr.pdPhys]
    rcases hr.state i with he | ⟨hne,_⟩
    · exact h.dead i (he ▸ hz)
    · exact absurd hz hne
  · rw [hr.isUser]
    exact h.idle

theorem Loaded.relabel {K : KernelLayout} {k k' : Kernel} (h : Loaded K k) (hr : Relabelled k k')
    (hc : k'.current = k.current) (hcr3 : k'.cr3 = k.cr3) : Loaded K k' := by
  constructor
  · intro c hcur hu hz
    rw [hc] at hcur
    rw [hr.isUser] at hu
    rcases hr.state c with he | ⟨hne,_⟩
    · exact h.alive c hcur hu (he ▸ hz)
    · exact hne hz
  · intro c hcur
    rw [hc] at hcur
    rw [hcr3,hr.pdPhys]
    exact h.cr3 c hcur

theorem relabelled_setState {k : Kernel} {c : Slot} {st : ProcState} (hst : st ≠ .zombie)
    (hlive : (k.table c).isUser = true → (k.table c).state ≠ .unused ∧ (k.table c).state ≠ .zombie) :
    Relabelled k (k.setState c st) := by
  refine ⟨rfl,fun i => by rw [setState_table],fun i => by rw [setState_table],fun i => ?_⟩
  rw [setState_table]
  by_cases hi : i = c
  · subst hi
    right
    rw [if_pos rfl]
    exact ⟨hst,hlive⟩
  · left
    rw [if_neg hi]

theorem relabelled_wake (p : Option Slot) (k : Kernel) : Relabelled k (processWake p k) := by
  unfold processWake
  split
  · exact Relabelled.refl k
  · split
    · rename_i i hb
      apply relabelled_setState (by decide)
      intro _
      rw [hb]
      decide
    · exact Relabelled.refl k

theorem relabelled_wakeAllBlocked (k : Kernel) : Relabelled k (processWakeAllBlocked k) := by
  constructor
  · rfl
  all_goals
    intro i
    unfold processWakeAllBlocked
    dsimp only
    by_cases hb : (k.table i).state = .blocked
  all_goals simp [hb]

/-! ## The switch -/

section Yield
variable (K : KernelLayout) (k : Kernel)

theorem processYield_pdPhys (i : Slot) : ((processYield K k).table i).pdPhys = (k.table i).pdPhys := by
  have h : (processYield K k).table = (schedNext (schedPoint k)).2.table := rfl
  rw [h,schedNext_snd,setState_table,released_table,schedPoint_table]

theorem processYield_isUser (i : Slot) : ((processYield K k).table i).isUser = (k.table i).isUser := by
  have h : (processYield K k).table = (schedNext (schedPoint k)).2.table := rfl
  rw [h,schedNext_snd,setState_table,released_table,schedPoint_table]

theorem processYield_cr3 : (processYield K k).cr3 =
    if ((processYield K k).table (nextSlot k)).pdPhys ≠ 0 then ((processYield K k).table (nextSlot k)).pdPhys
      else K.pageDirectory := rfl

/-- The slot switched to could run, or is the idle slot. -/
theorem nextSlot_cases : Runnable (k.table (nextSlot k)).state ∨ nextSlot k = 0 := by
  by_cases hp : PicksRunnable (schedPoint k)
  · left
    have hr : Runnable ((schedPoint k).table (nextSlot k)).state := hp
    rw [schedPoint_table] at hr
    exact hr
  · exact Or.inr (schedNext_fallback hp)

end Yield

theorem runnable_live {st : ProcState} (h : Runnable st) : st ≠ .unused ∧ st ≠ .zombie := by
  rcases h with rfl | rfl <;> decide

theorem Spaces.yield {K : KernelLayout} {k : Kernel} {live : List ℕ} (h : Spaces K k live) :
    Spaces K (processYield K k) live := by
  apply h.relabel
  refine ⟨processYield_mach K k,processYield_pdPhys K k,processYield_isUser K k,?_⟩
  intro i
  rw [processYield_state]
  by_cases hi : i = nextSlot k
  · right
    rw [if_pos hi]
    refine ⟨by decide,fun hu => ?_⟩
    rcases nextSlot_cases k with hr | h0
    · rw [hi]
      exact runnable_live hr
    · rw [hi,h0,h.idle] at hu
      cases hu
  · rw [if_neg hi]
    by_cases hr : k.current = some i ∧ (k.table i).state = .running
    · right
      rw [if_pos hr,hr.2]
      exact ⟨by decide,fun _ => by decide⟩
    · left
      rw [if_neg hr]

theorem Spaces.loaded_yield {K : KernelLayout} {k : Kernel} : Loaded K (processYield K k) := by
  constructor
  · intro c hc _ hz
    rw [processYield_running hc] at hz
    cases hz
  · intro c hc
    rw [processYield_current] at hc
    cases hc
    exact processYield_cr3 K k

/-! ## Termination -/

theorem terminate_mach_eq {k : Kernel} {c : Slot} : (terminate c k).mach =
    if (k.table c).pdPhys ≠ 0 then pagingDestroyPd (k.table c).pdPhys k.mach else k.mach := by
  unfold terminate
  dsimp only
  split <;> rfl

theorem terminate_self (c : Slot) (k : Kernel) :
    (terminate c k).table c = { k.table c with pdPhys := 0, state := .zombie } := by
  rw [terminate_table,Function.update_self]

theorem terminate_other {c i : Slot} (k : Kernel) (hi : i ≠ c) : (terminate c k).table i = k.table i := by
  rw [terminate_table,Function.update_of_ne hi]

theorem terminate_isUser (c : Slot) (k : Kernel) (i : Slot) :
    ((terminate c k).table i).isUser = (k.table i).isUser := by
  by_cases hi : i = c
  · rw [hi,terminate_self]
  · rw [terminate_other k hi]

theorem terminate_pd {c i : Slot} {k : Kernel} (hi : ((terminate c k).table i).pdPhys ≠ 0) :
    i ≠ c ∧ (k.table i).pdPhys ≠ 0 := by
  have hne : i ≠ c := by
    rintro rfl
    rw [terminate_self] at hi
    exact hi rfl
  rw [terminate_other k hne] at hi
  exact ⟨hne,hi⟩

section Directories
variable {k : Kernel} (hown : ∀ i j, (k.table i).pdPhys ≠ 0 → (k.table i).pdPhys = (k.table j).pdPhys → i = j)
include hown

theorem terminate_own (c i j : Slot) (hi : ((terminate c k).table i).pdPhys ≠ 0)
    (he : ((terminate c k).table i).pdPhys = ((terminate c k).table j).pdPhys) : i = j := by
  obtain ⟨hic,hi'⟩ := terminate_pd hi
  obtain ⟨hjc,_⟩ := terminate_pd (he ▸ hi)
  rw [terminate_other k hic,terminate_other k hjc] at he
  exact hown i j hi' he

/-- The directory of the process that ends is the only one that the others lose. -/
theorem terminate_dir {live : List ℕ} (hdir : ∀ i, (k.table i).pdPhys ≠ 0 → ∃ d ∈ live, (k.table i).pdPhys = 4096*d)
    {c : Slot} {d : ℕ} (hdc : (k.table c).pdPhys = 4096*d) (i : Slot) (hi : ((terminate c k).table i).pdPhys ≠ 0) :
    ∃ d' ∈ live.erase d, ((terminate c k).table i).pdPhys = 4096*d' := by
  obtain ⟨hic,hi'⟩ := terminate_pd hi
  obtain ⟨d',hd',he⟩ := hdir i hi'
  rw [terminate_other k hic]
  refine ⟨d',(List.mem_erase_of_ne ?_).mpr hd',he⟩
  rintro rfl
  exact hic (hown i c hi' (he.trans hdc.symm))

end Directories

theorem Spaces.terminate {K : KernelLayout} {k : Kernel} {live : List ℕ} (h : Spaces K k live) (c : Slot) :
    ∃ live', Spaces K (ProcessTable.terminate c k) live' := by
  have hown := terminate_own h.own c
  have huser : ∀ i, ((ProcessTable.terminate c k).table i).isUser = true →
      ((ProcessTable.terminate c k).table i).state ≠ .unused → ((ProcessTable.terminate c k).table i).state ≠ .zombie →
      ((ProcessTable.terminate c k).table i).pdPhys ≠ 0 := by
    intro i hu h1 h2
    have hne : i ≠ c := by
      rintro rfl
      rw [terminate_self] at h2
      exact h2 rfl
    rw [terminate_other k hne] at hu h1 h2 ⊢
    exact h.user i hu h1 h2
  have hthread : ∀ i, ((ProcessTable.terminate c k).table i).isUser = false →
      ((ProcessTable.terminate c k).table i).pdPhys = 0 := by
    intro i hu
    by_cases hi : i = c
    · rw [hi,terminate_self]
    · rw [terminate_other k hi] at hu ⊢
      exact h.thread i hu
  have hdead : ∀ i, ((ProcessTable.terminate c k).table i).state = .zombie →
      ((ProcessTable.terminate c k).table i).pdPhys = 0 := by
    intro i hz
    by_cases hi : i = c
    · rw [hi,terminate_self]
    · rw [terminate_other k hi] at hz ⊢
      exact h.dead i hz
  have hidle : ((ProcessTable.terminate c k).table 0).isUser = false := by
    rw [terminate_isUser]
    exact h.idle
  by_cases hpd : (k.table c).pdPhys ≠ 0
  · obtain ⟨d,hd,hdc⟩ := h.dir c hpd
    refine ⟨live.erase d,?_,terminate_dir h.own h.dir hdc,hown,huser,hthread,hdead,hidle⟩
    rw [terminate_mach_eq,if_pos hpd,hdc]
    exact separated_destroyPd h.separated hd
  · refine ⟨live,?_,?_,hown,huser,hthread,hdead,hidle⟩
    · rw [terminate_mach_eq,if_neg hpd]
      exact h.separated
    · intro i hi
      obtain ⟨hic,hi'⟩ := terminate_pd hi
      rw [terminate_other k hic]
      exact h.dir i hi'

theorem Loaded.terminate {K : KernelLayout} {k : Kernel} (h : Loaded K k) {c : Slot}
    (hc : k.current = some c → (k.table c).isUser = false ∧ (k.table c).pdPhys = 0) :
    Loaded K (ProcessTable.terminate c k) := by
  have hcur := terminate_current c k
  have hcr3 : (ProcessTable.terminate c k).cr3 = k.cr3 := by
    unfold ProcessTable.terminate
    dsimp only
    split <;> rfl
  constructor
  · intro i hi hu
    rw [hcur] at hi
    have hne : i ≠ c := by
      rintro rfl
      rw [terminate_isUser,(hc hi).1] at hu
      cases hu
    rw [terminate_other k hne] at hu ⊢
    exact h.alive i hi hu
  · intro i hi
    rw [hcur] at hi
    rw [hcr3,h.cr3 i hi]
    by_cases hic : i = c
    · subst hic
      rw [terminate_self,if_neg (by rw [(hc hi).2]; exact fun hn => hn rfl)]
      rfl
    · rw [terminate_other k hic]

/-! ## Creation -/

/-- A new process in an unused slot, with no directory or with one that no slot has yet. -/
theorem Spaces.insert {K : KernelLayout} {k : Kernel} {live live' : List ℕ} {i : Slot} {p : Proc} {mach : Machine}
    (h : Spaces K k live) (hs : Separated K mach live') (hsub : ∀ d ∈ live, d ∈ live') (hi : i ≠ 0)
    (hp : p.state = .ready) (hpd : (p.isUser = false ∧ p.pdPhys = 0) ∨
      (p.isUser = true ∧ ∃ d ∈ live', d ∉ live ∧ p.pdPhys = 4096*d ∧ 4096*d ≠ 0)) (n : ℕ) :
    Spaces K { k.setProc i p with mach := mach, nextPid := n } live' := by
  have hself : (k.setProc i p).table i = p := by simp [Kernel.setProc]
  have hother : ∀ j, j ≠ i → (k.setProc i p).table j = k.table j := by
    intro j hj
    simp [Kernel.setProc,hj]
  have hfresh : ∀ j, (k.table j).pdPhys ≠ 0 → p.pdPhys ≠ (k.table j).pdPhys := by
    intro j hj he
    rcases hpd with ⟨_,h0⟩ | ⟨_,d,_,hd,hpd,_⟩
    · exact hj (he.symm.trans h0)
    · obtain ⟨d',hd',he'⟩ := h.dir j hj
      have hdd : d = d' := by omega
      exact hd (hdd ▸ hd')
  constructor <;> dsimp only
  · exact hs
  · intro j hj
    by_cases hji : j = i
    · rw [hji,hself] at hj ⊢
      rcases hpd with ⟨_,h0⟩ | ⟨_,d,hd,_,he,_⟩
      · exact absurd h0 hj
      · exact ⟨d,hd,he⟩
    · rw [hother j hji] at hj ⊢
      obtain ⟨d,hd,he⟩ := h.dir j hj
      exact ⟨d,hsub d hd,he⟩
  · intro a b ha he
    by_cases hai : a = i <;> by_cases hbi : b = i
    · rw [hai,hbi]
    · rw [hai,hself] at ha he
      rw [hother b hbi] at he
      exact absurd he (hfresh b (he ▸ ha))
    · rw [hother a hai] at ha he
      rw [hbi,hself] at he
      exact absurd he.symm (hfresh a ha)
    · rw [hother a hai] at ha he
      rw [hother b hbi] at he
      exact h.own a b ha he
  · intro j hu h1 h2
    by_cases hji : j = i
    · rw [hji,hself] at hu ⊢
      rcases hpd with ⟨hf,_⟩ | ⟨_,d,_,_,he,hne⟩
      · rw [hf] at hu
        cases hu
      · rw [he]
        exact hne
    · rw [hother j hji] at hu h1 h2 ⊢
      exact h.user j hu h1 h2
  · intro j hu
    by_cases hji : j = i
    · rw [hji,hself] at hu ⊢
      rcases hpd with ⟨_,h0⟩ | ⟨ht,_⟩
      · exact h0
      · rw [ht] at hu
        cases hu
    · rw [hother j hji] at hu ⊢
      exact h.thread j hu
  · intro j hz
    by_cases hji : j = i
    · rw [hji,hself,hp] at hz
      cases hz
    · rw [hother j hji] at hz ⊢
      exact h.dead j hz
  · rw [hother 0 hi.symm]
    exact h.idle

theorem Spaces.create {K : KernelLayout} {k : Kernel} {live : List ℕ} (h : Spaces K k live) (hs : StacksOwned k) :
    Spaces K (processCreate k).2 live := by
  unfold processCreate createProc
  cases ha : allocSlot k with
  | none => exact h
  | some i =>
    have hi := allocSlot_unused ha
    have h0 : i ≠ 0 := by
      rintro rfl
      exact hs.idle hi
    exact h.insert h.separated (fun _ hd => hd) h0 rfl (Or.inl ⟨rfl,rfl⟩) _

theorem Loaded.keep {K : KernelLayout} {k k' : Kernel} (h : Loaded K k) (hc : k'.current = k.current)
    (hcr3 : k'.cr3 = k.cr3) (ht : ∀ c, k.current = some c → k'.table c = k.table c) : Loaded K k' := by
  constructor
  · intro c hcur
    rw [hc] at hcur
    rw [ht c hcur]
    exact h.alive c hcur
  · intro c hcur
    rw [hc] at hcur
    rw [hcr3,ht c hcur]
    exact h.cr3 c hcur

theorem Loaded.create {K : KernelLayout} {k : Kernel} (h : Loaded K k) (hs : StacksOwned k) :
    Loaded K (processCreate k).2 := by
  unfold processCreate createProc
  cases ha : allocSlot k with
  | none => exact h
  | some i =>
    have hi := allocSlot_unused ha
    refine h.keep rfl rfl ?_
    intro c hc
    have hne : c ≠ i := by
      rintro rfl
      exact hs.used c hc hi
    simp [Kernel.setProc,hne]

/-! ## `cmd_exec` -/

/-- What the command does to the table: nothing, or one call of `process_create_user`. -/
theorem cmdExec_table (K : KernelLayout) (file : Option Image) (k : Kernel) :
    (∀ k', cmdExec K file k = .returned k' → ∃ mach, k' = { k with mach := mach }) ∧
    ∀ i k', cmdExec K file k = .spawned i k' → ∃ entry pd mach,
      processCreateUser entry userStackTop pd { k with mach := mach } = (some i,k') := by
  have hreturned : ∀ mach, (∀ k', ExecResult.returned { k with mach := mach } = .returned k' →
      ∃ mach, k' = { k with mach := mach }) ∧ ∀ i k', ExecResult.returned { k with mach := mach } = .spawned i k' →
        ∃ entry pd mach, processCreateUser entry userStackTop pd { k with mach := mach } = (some i,k') := by
    intro mach
    exact ⟨fun k' he => ⟨mach,(ExecResult.returned.inj he).symm⟩,fun _ _ he => (nomatch he)⟩
  unfold cmdExec
  cases file with
  | none => exact hreturned k.mach
  | some img =>
    dsimp only
    generalize pagingCreatePd K k.mach = created
    obtain ⟨pd,mach₁⟩ := created
    dsimp only
    split
    · exact hreturned mach₁
    · generalize elfLoadUser img pd mach₁ = loaded
      obtain ⟨_ | entry,s⟩ := loaded
      · exact ⟨fun _ he => (nomatch he),fun _ _ he => (nomatch he)⟩
      · dsimp only
        split
        · exact hreturned _
        · generalize pagingAllocUserPages pd stackBase userStackPages s.mach = mapped
          split
          · rename_i mach
            cases hc : processCreateUser entry userStackTop pd { k with mach := mach } with
            | mk slot k₁ =>
              cases slot with
              | none =>
                have hk : k₁ = { k with mach := mach } := by
                  unfold processCreateUser createProc at hc
                  split at hc
                  · exact (Prod.mk.inj hc).2.symm
                  · cases hc
                rw [hk]
                exact hreturned _
              | some j =>
                refine ⟨fun _ he => (nomatch he),fun i k' he => ⟨entry,pd,mach,?_⟩⟩
                obtain ⟨rfl,rfl⟩ := ExecResult.spawned.inj he
                exact hc
          · exact hreturned _

/-! ## One step -/

structure Inv (K : KernelLayout) (k : Kernel) : Prop where
  owned : StacksOwned k
  pids : PidsDistinct k
  spaces : ∃ live, Spaces K k live
  loaded : Loaded K k

theorem Inv.safe {K : KernelLayout} {k : Kernel} (h : Inv K k) : UserSafe k := by
  obtain ⟨live,hsp⟩ := h.spaces
  exact userSafe_of_loaded hsp h.loaded h.owned

/-- After a switch only the ownership of the directories has to be shown. -/
theorem inv_yield {K : KernelLayout} {k : Kernel} (hs : StacksOwned k) (hp : PidsDistinct k)
    (hsp : ∃ live, Spaces K k live) : Inv K (processYield K k) := by
  obtain ⟨live,hsp⟩ := hsp
  exact ⟨hs.yield K,hp.same (samePids_yield hs K),⟨live,hsp.yield⟩,Spaces.loaded_yield⟩

section MachOnly
variable {K : KernelLayout} {k : Kernel} (mach : Machine)

theorem stacksOwned_setMach (h : StacksOwned k) : StacksOwned { k with mach := mach } :=
  ⟨h.saved,h.idle,h.onStack,h.used,h.running⟩

theorem pidsDistinct_setMach (h : PidsDistinct k) : PidsDistinct { k with mach := mach } :=
  h.same ⟨rfl,fun _ => rfl,rfl⟩

theorem Spaces.setMach {live : List ℕ} (h : Spaces K k live) (hs : Separated K mach live) :
    Spaces K { k with mach := mach } live :=
  ⟨hs,h.dir,h.own,h.user,h.thread,h.dead,h.idle⟩

theorem Inv.setMach {live : List ℕ} (h : Inv K k) (hsp : Spaces K k live) (hs : Separated K mach live) :
    Inv K { k with mach := mach } :=
  ⟨stacksOwned_setMach mach h.owned,pidsDistinct_setMach mach h.pids,⟨live,hsp.setMach mach hs⟩,
    h.loaded.keep rfl rfl fun _ _ => rfl⟩

end MachOnly

/-- The command keeps every directory apart, and gives a new process a directory of its own. -/
theorem cmdExec_spaces {K : KernelLayout} {k : Kernel} {live : List ℕ} (h : Spaces K k live) (file : Option Image) :
    (∀ k', cmdExec K file k = .returned k' → Separated K k'.mach live) ∧
    ∀ i k', cmdExec K file k = .spawned i k' → ∃ d, d ∉ live ∧ 4096*d ≠ 0 ∧ Separated K k'.mach (d :: live) ∧
      (k'.table i).pdPhys = 4096*d := by
  cases file with
  | none =>
    refine ⟨fun k' he => ?_,fun _ _ he => (nomatch he)⟩
    rw [← ExecResult.returned.inj he]
    exact h.separated
  | some img =>
    rcases cmdExec_cases h.separated img with ⟨_,he⟩ | ⟨d,q,ht,⟨_,he⟩ | ⟨_,s',hr,hend⟩⟩
    · rw [he]
      refine ⟨fun k' hk => ?_,fun _ _ hk => (nomatch hk)⟩
      rw [← ExecResult.returned.inj hk]
      exact h.separated
    · rw [he]
      exact ⟨fun _ hk => (nomatch hk),fun _ _ hk => (nomatch hk)⟩
    · have hsep := hr.separated (h.separated.freshDir ht) List.mem_cons_self
      have hnot : d ∉ live := fun hd => ht.ne (h.separated.dir_used hd) rfl
      have hpos : 4096*d ≠ 0 := ht.addr_ne_zero
      rcases hend with ⟨k₁,he,hm⟩ | ⟨j,k₁,he,hm,hpd⟩
      · rw [he]
        refine ⟨fun k' hk => ?_,fun _ _ hk => (nomatch hk)⟩
        rw [← ExecResult.returned.inj hk,hm]
        have hdestroy := separated_destroyPd hsep List.mem_cons_self
        rw [List.erase_cons_head] at hdestroy
        exact hdestroy
      · rw [he]
        refine ⟨fun _ hk => (nomatch hk),fun i k' hk => ?_⟩
        obtain ⟨rfl,rfl⟩ := ExecResult.spawned.inj hk
        exact ⟨d,hnot,hpos,hm ▸ hsep,hpd⟩

theorem Inv.exec_returned {K : KernelLayout} {k k' : Kernel} {file : Option Image} (h : Inv K k)
    (he : cmdExec K file k = .returned k') : Inv K k' := by
  obtain ⟨live,hsp⟩ := h.spaces
  obtain ⟨mach,rfl⟩ := (cmdExec_table K file k).1 k' he
  exact h.setMach mach hsp ((cmdExec_spaces hsp file).1 _ he)

theorem Inv.exec_spawned {K : KernelLayout} {k k' : Kernel} {file : Option Image} {i : Slot} (h : Inv K k)
    (he : cmdExec K file k = .spawned i k') : Inv K (processYield K k') := by
  obtain ⟨live,hsp⟩ := h.spaces
  obtain ⟨entry,pd,mach,hc⟩ := (cmdExec_table K file k).2 i k' he
  obtain ⟨d,hnot,hpos,hsep,hpd⟩ := (cmdExec_spaces hsp file).2 i k' he
  have hstacks := (stacksOwned_setMach mach h.owned).createProc true entry userStackTop pd
  have hpids := (pidsDistinct_setMach mach h.pids).createProc true entry userStackTop pd
  unfold processCreateUser at hc
  rw [hc] at hstacks hpids
  refine inv_yield hstacks hpids ⟨d :: live,?_⟩
  unfold createProc at hc
  cases ha : allocSlot { k with mach := mach } with
  | none =>
    rw [ha] at hc
    cases hc
  | some j =>
    rw [ha] at hc
    obtain ⟨hj,rfl⟩ := Prod.mk.inj hc
    cases hj
    have hi := allocSlot_unused ha
    have h0 : i ≠ 0 := by
      rintro rfl
      exact h.owned.idle hi
    have hself : pd = 4096*d := by
      simpa [Kernel.setProc] using hpd
    exact hsp.insert hsep (fun _ hd => List.mem_cons_of_mem _ hd) h0 rfl
      (Or.inr ⟨rfl,d,List.mem_cons_self,hnot,hself,hpos⟩) _

theorem Inv.kill {K : KernelLayout} {k : Kernel} {pid : ℕ} (h : Inv K k) (hsp : Spares k (.call (.kill pid))) :
    Inv K (processKill pid k).2 := by
  obtain ⟨live,hspaces⟩ := h.spaces
  have hkill : (∃ live, Spaces K (processKill pid k).2 live) ∧ Loaded K (processKill pid k).2 := by
    unfold processKill
    cases hk : killSlot pid k with
    | none => exact ⟨⟨live,hspaces⟩,h.loaded⟩
    | some i =>
      have hi := killSlot_spec hk
      refine ⟨hspaces.terminate i,h.loaded.terminate ?_⟩
      intro hc
      have hu : (k.table i).isUser = false := by
        by_contra hne
        exact hsp i hc (by simpa using hne) hi.1
      exact ⟨hu,hspaces.thread i hu⟩
  exact ⟨h.owned.restate (restated_kill pid k),h.pids.same (samePids_kill pid k),hkill.1,hkill.2⟩

/-- The directory of the caller is gone before the switch of `process_exit`, but no user code runs in between. -/
theorem Inv.yieldPoint {K : KernelLayout} {k k₀ : Kernel} {call : KernelCall} (h : Inv K k)
    (hy : call.yieldPoint k = some k₀) : ∃ live, Spaces K k₀ live := by
  obtain ⟨live,hsp⟩ := h.spaces
  cases call with
  | exit =>
    cases hy
    cases hc : k.current with
    | none => exact ⟨live,hsp⟩
    | some c => exact hsp.terminate c
  | block =>
    cases hy
    cases hc : k.current with
    | none => exact ⟨live,hsp⟩
    | some c =>
      refine ⟨live,hsp.relabel (relabelled_setState (by decide) ?_)⟩
      intro hu
      exact ⟨h.owned.used c hc,h.loaded.alive c hc hu⟩
  | yield =>
    cases hy
    exact ⟨live,hsp⟩
  | _ => cases hy

theorem Inv.apply {K : KernelLayout} {k : Kernel} {call : KernelCall} (h : Inv K k) (hd : Direct call)
    (hs : Spares k (.call call)) : Inv K (call.apply K k) := by
  have howned := h.owned.apply K call
  have hpids := h.pids.apply h.owned K call
  obtain ⟨live,hsp⟩ := h.spaces
  cases hy : call.yieldPoint k with
  | some k₀ =>
    rw [apply_yieldPoint hy]
    exact inv_yield (h.owned.restate (restated_yieldPoint h.owned hy))
      (h.pids.same (samePids_yieldPoint h.owned hy)) (h.yieldPoint hy)
  | none =>
    cases call with
    | create => exact ⟨howned,hpids,⟨live,hsp.create h.owned⟩,h.loaded.create h.owned⟩
    | createUser userEip userEsp pdPhys => exact hd.elim
    | kill pid => exact h.kill hs
    | wake p =>
      have hr := relabelled_wake p k
      have hw := restated_wake p k
      refine ⟨howned,hpids,⟨live,hsp.relabel hr⟩,h.loaded.relabel hr hw.current ?_⟩
      change (processWake p k).cr3 = k.cr3
      unfold processWake
      split
      · rfl
      · split <;> rfl
    | wakeAllBlocked =>
      have hr := relabelled_wakeAllBlocked k
      exact ⟨howned,hpids,⟨live,hsp.relabel hr⟩,h.loaded.relabel hr rfl rfl⟩
    | _ => cases hy

/-- A store of user code lands in a frame that is neither a directory nor a table. -/
theorem Inv.store {K : KernelLayout} {k : Kernel} {c : Slot} {x i j : ℕ} (h : Inv K k) (b : UInt8)
    (hc : k.current = some c) (hu : (k.table c).isUser = true)
    (hx : Holds k.mach.mem (k.cr3/4096) (.page i j) (x/4096)) :
    Inv K { k with mach := ⟨Function.update k.mach.mem x b,k.mach.pmm⟩ } := by
  obtain ⟨live,hsp⟩ := h.spaces
  obtain ⟨hpd,hcr3,_⟩ := h.safe c hc hu
  obtain ⟨d,hd,he⟩ := hsp.dir c hpd
  rw [hcr3,he,Nat.mul_div_cancel_left d (by decide)] at hx
  apply h.setMach _ hsp
  exact separated_dataFrame hsp.separated (dataFrame_page hsp.separated hd hx) fun _ => sameFrame_store k.mach.mem b

/-- A kill of the running user process returns to it without a directory. -/
theorem Inv.own_kill {K : KernelLayout} {k : Kernel} {pid : ℕ} (h : Inv K k) (hs : ¬ Spares k (.call (.kill pid))) :
    ¬ UserSafe (processKill pid k).2 := by
  simp only [Spares,not_forall,not_not] at hs
  obtain ⟨c,hc,hu,hpid⟩ := hs
  have hused := h.owned.used c hc
  have hslot : killSlot pid k = some c := by
    cases hk : killSlot pid k with
    | none =>
      have hn := List.find?_eq_none.mp hk c (List.mem_finRange c)
      simp only [decide_eq_true_eq] at hn
      exact absurd ⟨hpid,hused,h.loaded.alive c hc hu⟩ hn
    | some i =>
      have hi := killSlot_spec hk
      rw [h.pids.distinct i (mem_usedSlots.mpr hi.2.1) c (mem_usedSlots.mpr hused) (hi.1.trans hpid.symm)]
  have hkill : (processKill pid k).2 = terminate c k := by
    unfold processKill
    rw [hslot]
  rw [hkill]
  intro hsafe
  have hpd := (hsafe c ((terminate_current c k).trans hc) (by rw [terminate_isUser,hu])).1
  rw [terminate_self] at hpd
  exact hpd rfl

/-! ## Memory -/

theorem terminate_mem (c : Slot) (k : Kernel) : (terminate c k).mach.mem = k.mach.mem := by
  rw [terminate_mach_eq]
  split <;> rfl

/-- The operations on processes keep the contents of memory. -/
theorem apply_mem (K : KernelLayout) (k : Kernel) (call : KernelCall) : (call.apply K k).mach.mem = k.mach.mem := by
  have hcreate : ∀ isUser userEip userEsp pdPhys,
      (createProc isUser userEip userEsp pdPhys k).2.mach.mem = k.mach.mem := by
    intro isUser userEip userEsp pdPhys
    unfold createProc
    split <;> rfl
  cases call with
  | create => exact hcreate _ _ _ _
  | createUser userEip userEsp pdPhys => exact hcreate _ _ _ _
  | exit =>
    change (processExit K k).mach.mem = _
    unfold processExit
    rw [processYield_mach]
    cases k.current with
    | none => rfl
    | some c => exact terminate_mem c k
  | kill pid =>
    change (processKill pid k).2.mach.mem = _
    unfold processKill
    cases killSlot pid k with
    | none => rfl
    | some i => exact terminate_mem i k
  | block =>
    change (processBlock K k).mach.mem = _
    unfold processBlock
    rw [processYield_mach]
    cases k.current <;> rfl
  | wake p => rw [show KernelCall.apply K k (.wake p) = processWake p k from rfl,(relabelled_wake p k).mach]
  | wakeAllBlocked => rfl
  | yield => rw [show KernelCall.apply K k .yield = processYield K k from rfl,processYield_mach]

/-! ## The identity map -/

theorem identityMapped_of_low {K : KernelLayout} {m m' : Mem} (h : IdentityMapped K m)
    (hs : ∀ n < lowFrames, SameFrame m m' n) : IdentityMapped K m' := by
  constructor
  · intro t ht
    rw [← h.directory t ht]
    exact (hs _ K.directory_low).entry (by omega)
  · intro t ht i hi
    rw [← h.tables t ht i hi]
    exact (hs _ (by have := K.tables_low; omega)).entry hi

/-- The stack lies above 8 MB anyway. -/
theorem execPages_above {img : Image} {free : ℕ} (h : ∀ v ∈ (plan img ⟨free-1,{0,1}⟩).pages, 0x800000 ≤ v) :
    ∀ v ∈ execPages img free, 0x800000 ≤ v := by
  intro v hv
  rcases List.mem_append.mp hv with hv | hv
  · exact h v hv
  · have hstack : v ∈ pagesFrom stackBase userStackPages := by
      split at hv
      · split at hv
        · cases hv
        · exact AllocationBudget.run_subset hv
      · cases hv
    obtain ⟨i,hi,rfl⟩ := List.mem_map.mp hstack
    have hlt : i < 4 := List.mem_range.mp hi
    have hbase : stackBase = 0x101C000 := rfl
    rw [hbase]
    omega

section Identity
variable {K : KernelLayout} {k : Kernel} {live : List ℕ} (h : Separated K k.mach live)
  (hid : IdentityMapped K k.mach.mem)
include h hid

/-- The pages of a new process are entered in tables of its own. -/
theorem cmdExec_identity {file : Option Image} (hmap : KeepsMap k (.exec file)) :
    (∀ k', cmdExec K file k = .returned k' → IdentityMapped K k'.mach.mem) ∧
    ∀ i k', cmdExec K file k = .spawned i k' → IdentityMapped K k'.mach.mem := by
  cases file with
  | none =>
    refine ⟨fun k' he => ?_,fun _ _ he => by cases he⟩
    rw [← ExecResult.returned.inj he]
    exact hid
  | some img =>
    rcases cmdExec_cases h img with ⟨_,he⟩ | ⟨d,q,ht,⟨_,he⟩ | ⟨_,s',hr,hend⟩⟩
    · rw [he]
      refine ⟨fun k' hk => ?_,fun _ _ hk => by cases hk⟩
      rw [← ExecResult.returned.inj hk]
      exact hid
    · rw [he]
      exact ⟨fun _ hk => (by cases hk),fun _ _ hk => (by cases hk)⟩
    · have h₁ := h.freshDir ht
      have hd : d ∈ d :: live := List.mem_cons_self
      have hnext : IdentityMapped K s'.mem := by
        refine identityMapped_of_low hid fun n hn => ?_
        have hused := h.sound.low n hn
        have hsame := (LoadRun.kept h₁ hd hr (execPages_above hmap) (h₁.sound.low n hn) (low_not_own h₁ hd hn)).1
        exact (sameFrame_freshDir K k.mach.mem (ht.ne hused)).trans hsame
      rcases hend with ⟨k₁,he,hm⟩ | ⟨j,k₁,he,hm,_⟩
      · rw [he]
        refine ⟨fun k' hk => ?_,fun _ _ hk => by cases hk⟩
        rw [← ExecResult.returned.inj hk,hm]
        exact hnext
      · rw [he]
        refine ⟨fun _ hk => (by cases hk),fun i k' hk => ?_⟩
        obtain ⟨rfl,rfl⟩ := ExecResult.spawned.inj hk
        rw [hm]
        exact hnext

/-- A frame of a user page is none of the first megabyte. -/
theorem identity_pages {d : ℕ} (hd : d ∈ live) {m' : Mem}
    (hm : ∀ f, (¬ ∃ i j, Holds k.mach.mem d (.page i j) f) → SameFrame k.mach.mem m' f) : IdentityMapped K m' := by
  refine identityMapped_of_low hid fun n hn => hm n ?_
  rintro ⟨i,j,hp⟩
  exact h.not_low hd hp hn rfl

theorem identity_store {d : ℕ} (hd : d ∈ live) {x i j : ℕ} (b : UInt8)
    (hx : Holds k.mach.mem d (.page i j) (x/4096)) : IdentityMapped K (Function.update k.mach.mem x b) := by
  refine identity_pages h hid hd fun f hf => sameFrame_store k.mach.mem b ?_
  rintro rfl
  exact hf ⟨i,j,hx⟩

end Identity

/-! ## Boot -/

/-- No process has a directory at boot. -/
theorem processInit_slot (K : KernelLayout) (mach : Machine) (old : Slot → Proc) (i : Slot) :
    ((processInit K mach old).table i).pdPhys = 0 ∧ ((processInit K mach old).table i).isUser = false := by
  by_cases hi : i = 0
  · subst hi
    exact ⟨rfl,rfl⟩
  · have ht : (processInit K mach old).table i = { old i with
        state := .unused, pid := 0, pdPhys := 0, isUser := false } := Function.update_of_ne hi _ _
    rw [ht]
    exact ⟨rfl,rfl⟩

theorem inv_processInit (K : KernelLayout) (m : Mem) (mmap : BootMmap) (old : Slot → Proc) :
    Inv K (processInit K ⟨pagingInit K m,pmmInit mmap⟩ old) := by
  have hzero := processInit_slot K ⟨pagingInit K m,pmmInit mmap⟩ old
  refine ⟨stacksOwned_processInit K _ old,pidsDistinct_processInit K _ old,⟨[],?_⟩,?_⟩
  · constructor
    · exact separated_nil (pmmInit_sound mmap) (pagingInit_identityMapped K m)
    · intro i hi
      exact absurd (hzero i).1 hi
    · intro i j hi
      exact absurd (hzero i).1 hi
    · intro i hu
      rw [(hzero i).2] at hu
      cases hu
    · intro i _
      exact (hzero i).1
    · intro i _
      exact (hzero i).1
    · exact (hzero 0).2
  · exact ⟨fun _ hc => (nomatch hc),fun _ hc => (nomatch hc)⟩

/-! ## A program that is loaded -/

/-- The command spawns a process when the plan loads the image, the stack fits and a slot is free. -/
theorem cmdExec_spawns {K : KernelLayout} {k : Kernel} {live : List ℕ} (h : Separated K k.mach live) {img : Image}
    {b b' : AllocationBudget.Budget} {j : Slot} (hfree : freeCount k.mach.pmm ≠ 0)
    (hplan : (plan img ⟨freeCount k.mach.pmm-1,{0,1}⟩).ending = .loaded b) (hentry : img.eEntry ≠ 0)
    (hstack : (b.run (pagesFrom stackBase userStackPages)).2 = some b') (hslot : allocSlot k = some j) :
    ∃ pd mach, cmdExec K (some img) k =
      .spawned j { k.setProc j ⟨buildInitialKstack j,pd,.ready,(k.nextPid+1) % 2^32,true,img.eEntry,userStackTop⟩ with
        mach := mach, nextPid := (k.nextPid+1) % 2^32 } := by
  rcases h.createPd_cases with ⟨h0,_⟩ | ⟨d,q,ht,he⟩
  · exact absurd h0 hfree
  · have hpos : ¬ 4096*d = 0 := ht.addr_ne_zero
    have h₁ := h.freshDir ht
    have hd : d ∈ d :: live := List.mem_cons_self
    obtain ⟨hres,hrun,hbud,-⟩ := elfLoadUser_plan h₁ hd img
    rw [AllocationBudget.budget_freshDir K _ ht,hplan] at hres hbud
    have hsep := hrun.separated h₁ hd
    have hb := hbud b rfl
    unfold cmdExec
    dsimp only
    rw [he]
    dsimp only
    rw [if_neg hpos]
    generalize elfLoadUser img (4096*d) ⟨freshDir K k.mach.mem d,q⟩ = loaded at hres hsep hb
    obtain ⟨res,s⟩ := loaded
    dsimp only at hres hsep hb ⊢
    rw [hres]
    dsimp only [PlanEnd.result]
    rw [if_neg hentry]
    rcases AllocationBudget.allocUserPages_run hsep hd stackPages_lt with ⟨s',_,hok,_⟩ | ⟨_,_,_,_,_,_,hnone,_⟩
    · have hslot' : allocSlot { k with mach := s' } = some j := hslot
      simp only [pagingAllocUserPages,hok,processCreateUser,createProc,hslot']
      exact ⟨_,_,rfl⟩
    · rw [hb] at hnone
      rw [hnone] at hstack
      cases hstack

/-- The stack of a new process fits into what its image leaves. -/
def stackFits : PlanEnd → Bool
  | .loaded b => (b.run (pagesFrom stackBase userStackPages)).2.isSome
  | _ => false

theorem stackFits_spec {e : PlanEnd} (h : stackFits e = true) :
    ∃ b b', e = .loaded b ∧ (b.run (pagesFrom stackBase userStackPages)).2 = some b' := by
  cases e with
  | loaded b =>
    obtain ⟨b',hb⟩ := Option.isSome_iff_exists.mp h
    exact ⟨b,b',rfl,hb⟩
  | _ => cases h

/-- The program of `userImage` is loaded, and runs after the idle process with its page at 16 MB. -/
theorem exec_userImage : ∃ k₁ d g, cmdExec sampleLayout (some userImage) bootedKernel = .spawned 1 k₁ ∧
    (processYield sampleLayout (processYield sampleLayout k₁)).current = some 1 ∧
    ((processYield sampleLayout (processYield sampleLayout k₁)).table 1).isUser = true ∧
    ((processYield sampleLayout (processYield sampleLayout k₁)).table 1).pid = 2 ∧
    ((processYield sampleLayout (processYield sampleLayout k₁)).table 1).pdPhys = 4096*d ∧
    Maps (processYield sampleLayout (processYield sampleLayout k₁)).mach.mem d 0x1000000 g := by
  have hsep : Separated sampleLayout bootedKernel.mach [] := bootedSystem_separated
  have hfree : freeCount bootedKernel.mach.pmm = 7936 := bootedSystem_freeCount
  have hentry : userImage.eEntry ≠ 0 := by decide +kernel
  have hfits : stackFits (plan userImage ⟨7935,{0,1}⟩).ending = true := by decide +kernel
  have hslot : allocSlot bootedKernel = some 1 := rfl
  have hpages : execPages userImage 7936 = [0x1000000,0x101C000,0x101D000,0x101E000,0x101F000] := by
    decide +kernel
  rw [← show freeCount bootedKernel.mach.pmm - 1 = 7935 by rw [hfree]] at hfits
  obtain ⟨b,b',hplan,hstack⟩ := stackFits_spec hfits
  obtain ⟨pd,mach,he⟩ := cmdExec_spawns hsep (by rw [hfree]; decide) hplan hentry hstack hslot
  rcases cmdExec_cases hsep userImage with ⟨_,hr⟩ | ⟨d,q,ht,⟨_,hr⟩ | ⟨_,s',hrun,⟨k',hr,_⟩ | ⟨i,k',hr,hm,hpd⟩⟩⟩
  · rw [he] at hr
    cases hr
  · rw [he] at hr
    cases hr
  · rw [he] at hr
    cases hr
  · rw [he] at hr
    obtain ⟨rfl,rfl⟩ := ExecResult.spawned.inj hr
    rw [hfree,hpages] at hrun
    obtain ⟨-,g,hg,-⟩ := hrun.mapped (hsep.freshDir ht) List.mem_cons_self 0x1000000 List.mem_cons_self
    rw [← hm] at hg
    refine ⟨_,d,g,he,rfl,rfl,rfl,?_,?_⟩
    · rw [processYield_pdPhys,processYield_pdPhys]
      exact hpd
    · rw [processYield_mach,processYield_mach]
      exact hg

end VesperOS.LoadedSpace
