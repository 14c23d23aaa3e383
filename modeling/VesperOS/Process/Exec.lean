import VesperOS.Loader.FrameBalance
import VesperOS.Process.ProcessTable

/-! # `exec`

`cmd_exec` of `shell.c` from the file contents on: what the lookup in the file
system delivers is a parameter, `none` when the command gives up before it has a
file in `run_buf`. Every exit of the command after the directory was created
destroys it again, and so does the end of the process.
-/
namespace VesperOS.Exec
open ByteMemory FrameAllocator Paging AddressSpaces AllocationBudget Translation ElfImage LoadPlan
open FrameBalance ProcessTable SpaceLifecycle

/-- `USER_STACK_TOP` and `USER_STACK_PAGES`. -/
def userStackTop : ℕ := 0x01020000
def userStackPages : ℕ := 4
def stackBase : ℕ := userStackTop - userStackPages*4096

inductive ExecResult where
  | returned (k : Kernel)
  | spawned (i : Slot) (k : Kernel)
  | overrun

/-- Up to the final `process_yield`. -/
def cmdExec (K : KernelLayout) (file : Option Image) (k : Kernel) : ExecResult :=
  match file with
  | none => .returned k
  | some img =>
    let (pd,mach) := pagingCreatePd K k.mach
    if pd = 0 then .returned { k with mach := mach }
    else
      match elfLoadUser img pd mach with
      | (none,_) => .overrun
      | (some entry,s) =>
        if entry = 0 then .returned { k with mach := pagingDestroyPd pd s.mach }
        else
          match pagingAllocUserPages pd stackBase userStackPages s.mach with
          | (0,mach) =>
            match processCreateUser entry userStackTop pd { k with mach := mach } with
            | (none,k) => .returned { k with mach := pagingDestroyPd pd k.mach }
            | (some i,k) => .spawned i k
          | (_,mach) => .returned { k with mach := pagingDestroyPd pd mach }

/-- What may happen between the spawn and the end of the process: no allocator
call, and no write to the directory or the tables of the process. -/
structure Lives (i : Slot) (k k' : Kernel) : Prop where
  pmm : k'.mach.pmm = k.mach.pmm
  space : Untouched k.mach.mem k'.mach.mem ((k.table i).pdPhys/4096)
  pd : (k'.table i).pdPhys = (k.table i).pdPhys

/-- The process in slot `i` ends, by its own exit or by a kill that finds it. -/
inductive Ends (K : KernelLayout) (i : Slot) : Kernel → Kernel → Prop
  | exit (k : Kernel) : k.current = some i → Ends K i k (processExit K k)
  | kill (k : Kernel) (pid : ℕ) : killSlot pid k = some i → Ends K i k (processKill pid k).2

/-- The command leaks no frame: neither when it fails nor over the life of the
process it spawns. -/
structure NoLeak (K : KernelLayout) (file : Option Image) (k : Kernel) : Prop where
  inside : cmdExec K file k ≠ .overrun
  returned : ∀ k', cmdExec K file k = .returned k' → Restored k.mach.pmm k'.mach.pmm
  spawned : ∀ i k₁, cmdExec K file k = .spawned i k₁ → ∀ k₂ k₃, Lives i k₁ k₂ → Ends K i k₂ k₃ →
    Restored k.mach.pmm k₃.mach.pmm

theorem noLeak_returned {K : KernelLayout} {file : Option Image} {k k' : Kernel}
    (he : cmdExec K file k = .returned k') : NoLeak K file k ↔ Restored k.mach.pmm k'.mach.pmm := by
  constructor
  · intro h
    exact h.returned k' he
  · intro h
    refine ⟨by rw [he]; simp,fun k'' he' => ?_,fun i k₁ he' => ?_⟩
    · rw [he] at he'
      cases he'
      exact h
    · rw [he] at he'
      cases he'

theorem noLeak_spawned {K : KernelLayout} {file : Option Image} {k k₁ : Kernel} {i : Slot}
    (he : cmdExec K file k = .spawned i k₁) : NoLeak K file k ↔
      ∀ k₂ k₃, Lives i k₁ k₂ → Ends K i k₂ k₃ → Restored k.mach.pmm k₃.mach.pmm := by
  constructor
  · intro h
    exact h.spawned i k₁ he
  · intro h
    refine ⟨by rw [he]; simp,fun k'' he' => ?_,fun j k₁' he' => ?_⟩
    · rw [he] at he'
      cases he'
    · rw [he] at he'
      cases he'
      exact h

/-- The pages the command maps, given the number of free frames. -/
def execPages (img : Image) (free : ℕ) : List ℕ :=
  let p := plan img ⟨free-1,{0,1}⟩
  p.pages ++ match p.ending with
    | .loaded b => if img.eEntry = 0 then [] else (b.run (pagesFrom stackBase userStackPages)).1
    | _ => []

/-! ## The end of a process -/

theorem schedNext_mach (k : Kernel) : (schedNext k).2.mach = k.mach := by
  unfold schedNext
  split
  · split <;> rfl
  · dsimp only
    split <;> split <;> rfl

theorem processYield_mach (K : KernelLayout) (k : Kernel) : (processYield K k).mach = k.mach := by
  have hsave : ∀ k : Kernel, (saveEsp k).mach = k.mach := by
    intro k
    unfold saveEsp
    split <;> rfl
  simp only [processYield,processBeforeSwitch]
  rw [schedNext_mach,hsave]

theorem terminate_mach {i : Slot} {k : Kernel} (h : (k.table i).pdPhys ≠ 0) :
    (terminate i k).mach = pagingDestroyPd (k.table i).pdPhys k.mach := by
  simp only [terminate,if_pos h,Kernel.setProc]

theorem Ends.mach {K : KernelLayout} {i : Slot} {k k' : Kernel} (he : Ends K i k k')
    (h : (k.table i).pdPhys ≠ 0) : k'.mach = pagingDestroyPd (k.table i).pdPhys k.mach := by
  cases he with
  | exit hc =>
    rw [processExit,processYield_mach,hc]
    exact terminate_mach h
  | kill pid hs =>
    simp only [processKill,hs]
    exact terminate_mach h

/-! ## The command -/

theorem stackPages_lt : ∀ v ∈ pagesFrom stackBase userStackPages, v < 2^32 := fun _ hv => pagesFrom_lt hv

/-- How the command goes on once the image is loaded with a non-zero entry. -/
theorem afterLoad_cases {K : KernelLayout} {live : List ℕ} {d : ℕ} {s₁ s : Machine}
    (h₁ : Separated K s₁ live) (hd : d ∈ live) {vs : List ℕ} (hr : LoadRun live d s₁ vs s) (entry : ℕ)
    (k : Kernel) :
    ∃ s', LoadRun live d s₁ (vs ++ ((budgetOf s d).run (pagesFrom stackBase userStackPages)).1) s' ∧
      let r := match pagingAllocUserPages (4096*d) stackBase userStackPages s with
        | (0,mach) =>
          match processCreateUser entry userStackTop (4096*d) { k with mach := mach } with
          | (none,k) => ExecResult.returned { k with mach := pagingDestroyPd (4096*d) k.mach }
          | (some i,k) => .spawned i k
        | (_,mach) => .returned { k with mach := pagingDestroyPd (4096*d) mach }
      (∃ k', r = .returned k' ∧ k'.mach = pagingDestroyPd (4096*d) s') ∨
      ∃ i k', r = .spawned i k' ∧ k'.mach = s' ∧ (k'.table i).pdPhys = 4096*d := by
  rcases allocUserPages_run (hr.separated h₁ hd) hd stackPages_lt with
    ⟨s',hm,he,hb⟩ | ⟨ms,s',s'',hm,hlast,he,hb,hsub⟩
  · refine ⟨s',?_,?_⟩
    · rw [hb]
      exact hr.pages hm stackPages_lt
    · simp only [pagingAllocUserPages,he,processCreateUser,createProc]
      cases allocSlot { k with mach := s' } with
      | none => exact Or.inl ⟨_,rfl,rfl⟩
      | some i =>
        refine Or.inr ⟨i,_,rfl,rfl,?_⟩
        simp [Kernel.setProc]
  · refine ⟨s'',?_,?_⟩
    · rw [hb]
      have hpages := hr.pages hm fun w hw => stackPages_lt w (hsub w hw)
      rcases hlast with rfl | ⟨i,hi,ht⟩
      · exact hpages
      · exact hpages.table hi ht
    · simp only [pagingAllocUserPages,he]
      exact Or.inl ⟨_,rfl,rfl⟩

section Command
variable {K : KernelLayout} {k : Kernel} {live : List ℕ} (h : Separated K k.mach live) (img : Image)
include h

/-- The command without memory, with an overlong copy, or after a load that
mapped the planned pages. -/
theorem cmdExec_cases :
    (freeCount k.mach.pmm = 0 ∧ cmdExec K (some img) k = .returned k) ∨
    ∃ d q, Takes k.mach.pmm q d ∧
      (((plan img ⟨freeCount k.mach.pmm-1,{0,1}⟩).ending = .overrun ∧ cmdExec K (some img) k = .overrun) ∨
      ((plan img ⟨freeCount k.mach.pmm-1,{0,1}⟩).ending ≠ .overrun ∧
        ∃ s', LoadRun (d :: live) d ⟨freshDir K k.mach.mem d,q⟩ (execPages img (freeCount k.mach.pmm)) s' ∧
        ((∃ k', cmdExec K (some img) k = .returned k' ∧ k'.mach = pagingDestroyPd (4096*d) s') ∨
          ∃ i k', cmdExec K (some img) k = .spawned i k' ∧ k'.mach = s' ∧ (k'.table i).pdPhys = 4096*d))) := by
  rcases h.createPd_cases with ⟨h0,he⟩ | ⟨d,q,ht,he⟩
  · exact Or.inl ⟨h0,by simp [cmdExec,he]⟩
  · right
    refine ⟨d,q,ht,?_⟩
    have hpos : ¬ 4096*d = 0 := ht.addr_ne_zero
    have h₁ := h.freshDir ht
    have hd : d ∈ d :: live := List.mem_cons_self
    obtain ⟨hres,hrun,hbud,-⟩ := elfLoadUser_plan h₁ hd img
    rw [budget_freshDir K _ ht] at hres hrun hbud
    simp only [cmdExec,he,if_neg hpos,execPages]
    rcases hload : elfLoadUser img (4096*d) ⟨freshDir K k.mach.mem d,q⟩ with ⟨res,s⟩
    rw [hload] at hres hrun hbud
    dsimp only at hres hrun hbud ⊢
    rw [hres]
    generalize plan img ⟨freeCount k.mach.pmm-1,{0,1}⟩ = p at *
    obtain ⟨visited,copied,pages,ending⟩ := p
    cases ending with
    | overrun => exact Or.inl ⟨rfl,rfl⟩
    | refused =>
      refine Or.inr ⟨by simp,s.mach,by simpa using hrun,Or.inl ⟨_,rfl,rfl⟩⟩
    | outOfMemory =>
      refine Or.inr ⟨by simp,s.mach,by simpa using hrun,Or.inl ⟨_,rfl,rfl⟩⟩
    | loaded b =>
      right
      refine ⟨by simp,?_⟩
      simp only [PlanEnd.result]
      by_cases hz : img.eEntry = 0
      · rw [if_pos hz,if_pos hz]
        exact ⟨s.mach,by simpa using hrun,Or.inl ⟨_,rfl,rfl⟩⟩
      · rw [if_neg hz,if_neg hz,← hbud b rfl]
        exact afterLoad_cases h₁ hd hrun img.eEntry k

theorem cmdExec_noFrame (hfree : freeCount k.mach.pmm = 0) : cmdExec K (some img) k = .returned k := by
  rcases cmdExec_cases h img with ⟨_,he⟩ | ⟨d,q,ht,_⟩
  · exact he
  · have := ht.count
    omega

/-- What the plan of a loading command has to satisfy. -/
def CleanExec (img : Image) (free : ℕ) : Prop :=
  (plan img ⟨free-1,{0,1}⟩).ending ≠ .overrun ∧ Tidy (execPages img free)

theorem cmdExec_noLeak (hfree : freeCount k.mach.pmm ≠ 0) :
    NoLeak K (some img) k ↔ CleanExec img (freeCount k.mach.pmm) := by
  rcases cmdExec_cases h img with ⟨h0,_⟩ | ⟨d,q,ht,⟨ho,he⟩ | ⟨ho,s',hr,hend⟩⟩
  · exact absurd h0 hfree
  · exact ⟨fun hn => absurd he hn.inside,fun hc => absurd ho hc.1⟩
  · have hiff := destroyPd_restored_iff h ht hr
    have hself : Untouched s'.mem s'.mem d := ⟨SameFrame.refl _ _,fun _ _ _ => SameFrame.refl _ _⟩
    rw [CleanExec,and_iff_right ho,← hiff]
    have hpos : 4096*d ≠ 0 := ht.addr_ne_zero
    rcases hend with ⟨k',he,hm⟩ | ⟨i,k₁,he,hm,hpd⟩
    · rw [noLeak_returned he,hm]
      constructor
      · intro hres
        by_contra hno
        have hbad : ¬ Tidy (execPages img (freeCount k.mach.pmm)) := fun ht' => hno (hiff.mpr ht')
        obtain ⟨g,hg⟩ := LoadRun.leaked (h.freshDir ht) List.mem_cons_self (balanced_freshDir ht) hr hbad
        exact not_restored_destroyPd hg hres
      · intro hall
        exact hall s'.mem hself
    · rw [noLeak_spawned he]
      have hdiv : 4096*d/4096 = d := by omega
      constructor
      · -- let the process exit at once, with any contents of its frames
        intro hall m' hu
        have hres := hall { k₁ with mach := ⟨m',s'.pmm⟩, current := some i } _
          ⟨by rw [hm],by rw [hm,hpd,hdiv]; exact hu,rfl⟩ (.exit _ rfl)
        rw [Ends.mach (.exit (K := K) _ rfl) (by dsimp only; rw [hpd]; exact hpos)] at hres
        dsimp only at hres
        rw [hpd] at hres
        exact hres
      · intro hall k₂ k₃ hl hend
        have hpd₂ : (k₂.table i).pdPhys = 4096*d := hl.pd.trans hpd
        have hsp := hl.space
        rw [hpd,hdiv,hm] at hsp
        have hk₂ : k₂.mach = ⟨k₂.mach.mem,s'.pmm⟩ := by
          rw [← hm,← hl.pmm]
        rw [hend.mach (by rw [hpd₂]; exact hpos),hpd₂,hk₂]
        exact hall _ hsp

end Command

/-- `exec` leaks no physical memory exactly when it has no file, no frame for a
directory, or a plan without overlong copy whose pages, the stack's included,
lie above 8 MB and are all different. -/
theorem exec_noLeak_iff {K : KernelLayout} {k : Kernel} {live : List ℕ} (h : Separated K k.mach live)
    (file : Option Image) :
    NoLeak K file k ↔ ∀ img, file = some img → freeCount k.mach.pmm ≠ 0 →
      CleanExec img (freeCount k.mach.pmm) := by
  cases file with
  | none =>
    rw [noLeak_returned (show cmdExec K none k = .returned k from rfl)]
    simp [Restored]
  | some img =>
    by_cases hfree : freeCount k.mach.pmm = 0
    · rw [noLeak_returned (cmdExec_noFrame h img hfree)]
      exact iff_of_true ⟨rfl,rfl⟩ fun _ _ hne => absurd hfree hne
    · rw [cmdExec_noLeak h img hfree]
      constructor
      · intro hc img' he _
        cases he
        exact hc
      · intro hc
        exact hc img rfl hfree

/-- The kernel after `process_init`, on the machine booted above. -/
def bootedKernel : Kernel :=
  processInit sampleLayout bootedSystem.mach fun _ => ⟨⟨none,0⟩,0,.unused,0,false,0,0⟩

theorem bootedKernel_mach : bootedKernel.mach = bootedSystem.mach := rfl

theorem exec_noLeak_userImage : NoLeak sampleLayout (some userImage) bootedKernel := by
  have hsep : Separated sampleLayout bootedKernel.mach [] := bootedSystem_separated
  have hplan : (plan userImage ⟨7935,{0,1}⟩).ending.result userImage = some 0x1000000 := by decide +kernel
  have hpages : execPages userImage 7936 = [0x1000000,0x101C000,0x101D000,0x101E000,0x101F000] := by
    decide +kernel
  refine (exec_noLeak_iff (k := bootedKernel) hsep (some userImage)).mpr ?_
  intro img he _
  cases he
  rw [bootedKernel_mach,bootedSystem_freeCount]
  constructor
  · intro ho
    rw [ho] at hplan
    cases hplan
  · rw [hpages]
    exact ⟨by decide,by decide⟩

/-- The frame first given to the shared page is lost. -/
theorem sharedImage_leaks : ¬ NoLeak sampleLayout (some sharedImage) bootedKernel := by
  have hsep : Separated sampleLayout bootedKernel.mach [] := bootedSystem_separated
  have hfree : freeCount bootedKernel.mach.pmm = 7936 := bootedSystem_freeCount
  have hpages : execPages sharedImage 7936 =
      [0x1000000,0x1000000,0x101C000,0x101D000,0x101E000,0x101F000] := by decide +kernel
  rw [cmdExec_noLeak hsep sharedImage (by rw [hfree]; decide),hfree]
  rintro ⟨_,_,hpw⟩
  rw [hpages] at hpw
  exact absurd hpw (by decide)

end VesperOS.Exec
