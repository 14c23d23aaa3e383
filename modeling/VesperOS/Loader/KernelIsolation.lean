import VesperOS.Loader.LoadPlan

/-! # Does a load leave the kernel alone?

PDEs 0 and 1 of every directory lead to the kernel's own page tables. A load
that maps only pages from 8 MB on writes to the new directory, its tables and
frames that were free; a page below 8 MB is entered in a kernel table.
-/
namespace VesperOS.KernelIsolation
open ByteMemory FrameAllocator Paging AddressSpaces AllocationBudget Translation ElfImage LoadPlan
open SpaceLifecycle

/-- The directory itself and its page tables. -/
def OwnFrame (m : Mem) (d f : ℕ) : Prop := f = d ∨ ∃ i, Holds m d (.table i) f

/-- The kernel directory, the kernel tables and every frame in use before, other
than the directory loaded into and its tables, hold the same bytes after. -/
structure KernelKept (K : KernelLayout) (d : ℕ) (s s' : Machine) : Prop where
  directory : SameFrame s.mem s'.mem K.directoryFrame
  tables : ∀ t < 2, SameFrame s.mem s'.mem (K.tablesFrame+t)
  used : ∀ f, pmmIsUsed s.pmm f = true → ¬ OwnFrame s.mem d f → SameFrame s.mem s'.mem f

/-- User-flagged entries of the kernel tables name frames in use; `paging_init`
makes no such entry. -/
def KernelPtesUsed (K : KernelLayout) (s : Machine) : Prop :=
  ∀ t < 2, ∀ j < 1024, ∀ g, entry s.mem (K.pageTable t) j = 4096*g+7 → pmmIsUsed s.pmm g = true

theorem kernelPtesUsed_of_identity {K : KernelLayout} {s : Machine} (h : IdentityMapped K s.mem) :
    KernelPtesUsed K s := by
  intro t ht j hj g he
  rw [h.tables t ht j hj] at he
  omega

section Step
variable {K : KernelLayout} {s : Machine} {live : List ℕ} (h : Separated K s live) {d : ℕ} (hd : d ∈ live)
include h hd

theorem low_not_own {n : ℕ} (hn : n < lowFrames) : ¬ OwnFrame s.mem d n := by
  rintro (rfl | ⟨i,hi⟩)
  · exact h.not_low hd (r := .dir) rfl hn rfl
  · exact h.not_low hd hi hn rfl

theorem kept_tableReady {i f : ℕ} {s₁ : Machine} (hi : i < 1024) (hr : TableReady d i s s₁)
    (hu : pmmIsUsed s.pmm f = true) (hf : ¬ OwnFrame s.mem d f) :
    SameFrame s.mem s₁.mem f ∧ ¬ OwnFrame s₁.mem d f := by
  rcases hr with ⟨_,rfl⟩ | ⟨hp,hi2,t,q,ht,rfl⟩
  · exact ⟨SameFrame.refl _ _,hf⟩
  · have hft : f ≠ t := ht.ne hu
    refine ⟨sameFrame_linkTable s.mem hi (fun he => hf (Or.inl he)) hft,?_⟩
    rintro (rfl | ⟨k,hk⟩)
    · exact hf (Or.inl rfl)
    · rcases (h.table_linkTable hd hi2 hi hp ht k f).mp hk with hk | ⟨_,rfl⟩
      · exact hf (Or.inr ⟨k,hk⟩)
      · exact hft rfl

/-- A page from 8 MB on is entered in one of the directory's own tables. -/
theorem kept_pageMapped {v f : ℕ} {s' : Machine} (hv : v < 2^32) (hhigh : 2 ≤ v/4194304)
    (hm : PageMapped d v s s') (hu : pmmIsUsed s.pmm f = true) (hf : ¬ OwnFrame s.mem d f) :
    SameFrame s.mem s'.mem f ∧ ¬ OwnFrame s'.mem d f := by
  obtain ⟨s₁,g,q,hr,hg,rfl⟩ := hm
  have hi : v/4194304 < 1024 := by omega
  have hj : v/4096 % 1024 < 1024 := by omega
  obtain ⟨h₁,hp⟩ := h.tableReady hd hi hr
  obtain ⟨hsame,hf₁⟩ := kept_tableReady h hd hi hr hu hf
  have hown : Holds s₁.mem d (.table (v/4194304)) (entry s₁.mem (4096*d) (v/4194304)/4096) :=
    ⟨hhigh,hi,hp,rfl⟩
  refine ⟨hsame.trans (sameFrame_linkPage _ hj ?_),?_⟩
  · rintro rfl
    exact hf₁ (Or.inr ⟨_,hown⟩)
  · rintro (rfl | ⟨k,hk⟩)
    · exact hf₁ (Or.inl rfl)
    · exact hf₁ (Or.inr ⟨k,(table_enter h₁ hd hi hj hp hd).mp hk⟩)

end Step

section Run
variable {K : KernelLayout} {live : List ℕ} {d : ℕ} {s₀ : Machine} (h₀ : Separated K s₀ live) (hd : d ∈ live)
include h₀ hd

/-- The invariant of a load from 8 MB on: a frame in use that is not the
directory's own stays so and keeps its bytes. -/
theorem LoadRun.kept {vs : List ℕ} {s : Machine} (hr : LoadRun live d s₀ vs s)
    (hhigh : ∀ v ∈ vs, 0x800000 ≤ v) {f : ℕ} (hu : pmmIsUsed s₀.pmm f = true)
    (hf : ¬ OwnFrame s₀.mem d f) : SameFrame s₀.mem s.mem f ∧ ¬ OwnFrame s.mem d f := by
  induction hr with
  | start => exact ⟨SameFrame.refl _ _,hf⟩
  | table hr hi ht ih =>
    obtain ⟨h1,h2⟩ := ih hhigh
    obtain ⟨h3,h4⟩ := kept_tableReady (hr.separated h₀ hd) hd hi ht (hr.mono h₀ hd hu) h2
    exact ⟨h1.trans h3,h4⟩
  | @page vs s s' v hr hv hm ih =>
    obtain ⟨h1,h2⟩ := ih fun w hw => hhigh w (List.mem_append_left _ hw)
    have hv2 := hhigh v (List.mem_append_right _ (List.mem_singleton_self v))
    obtain ⟨h3,h4⟩ := kept_pageMapped (hr.separated h₀ hd) hd hv (by omega) hm (hr.mono h₀ hd hu) h2
    exact ⟨h1.trans h3,h4⟩
  | @fill vs s v g m' hr hg hm ih =>
    obtain ⟨h1,h2⟩ := ih hhigh
    have hne : f ≠ g := by
      rintro rfl
      rw [hg.fresh] at hu
      cases hu
    refine ⟨h1.trans (hm f hne),?_⟩
    rintro (rfl | ⟨i,hi⟩)
    · exact h2 (Or.inl rfl)
    · exact h2 (Or.inr ⟨i,((untouched_dataFrame hg.data hm hd).holds _ _).mp hi⟩)

/-- A mapped page below 8 MB has changed a kernel table. -/
theorem not_kept_of_low {vs : List ℕ} {s : Machine} (hr : LoadRun live d s₀ vs s) (hk : KernelPtesUsed K s₀)
    {v : ℕ} (hv : v ∈ vs) (hlow : v < 0x800000) : ¬ KernelKept K d s₀ s := by
  intro hkept
  obtain ⟨hlt,g,hm,hg⟩ := hr.mapped h₀ hd v hv
  have h2 : v/4194304 < 2 := by omega
  have hj : v/4096 % 1024 < 1024 := by omega
  have hpte := hm.pte
  rw [pteOf,tableFrame,((hr.separated h₀ hd).flagged d hd).kernel _ h2,KernelLayout.pageTable,
    show (4096*(K.tablesFrame+v/4194304)+3)/4096 = K.tablesFrame+v/4194304 by omega,
    (hkept.tables _ h2).entry hj] at hpte
  have hused := hk _ h2 _ hj g hpte
  rw [hg] at hused
  cases hused

theorem kernelKept_of_high {vs : List ℕ} {s : Machine} (hr : LoadRun live d s₀ vs s)
    (hhigh : ∀ v ∈ vs, 0x800000 ≤ v) : KernelKept K d s₀ s := by
  have hlow : ∀ n < lowFrames, SameFrame s₀.mem s.mem n := fun n hn =>
    (LoadRun.kept h₀ hd hr hhigh (h₀.sound.low n hn) (low_not_own h₀ hd hn)).1
  constructor
  · exact hlow _ K.directory_low
  · intro t ht
    exact hlow _ (by have := K.tables_low; omega)
  · intro f hu hf
    exact (LoadRun.kept h₀ hd hr hhigh hu hf).1

end Run

/-- A load returns with the kernel's address space as it was exactly when its
plan maps no page below 8 MB and has no overlong copy. -/
theorem elfLoadUser_keepsKernel_iff {K : KernelLayout} {live : List ℕ} {d : ℕ} {s : Machine}
    (h : Separated K s live) (hd : d ∈ live) (hk : KernelPtesUsed K s) (img : Image) :
    ((elfLoadUser img (4096*d) s).1 ≠ none ∧ KernelKept K d s (elfLoadUser img (4096*d) s).2.mach) ↔
      (plan img (budgetOf s d)).ending ≠ .overrun ∧
      ∀ v ∈ (plan img (budgetOf s d)).pages, 0x800000 ≤ v := by
  obtain ⟨hres,hrun,-,-⟩ := elfLoadUser_plan h hd img
  have hnone : (elfLoadUser img (4096*d) s).1 ≠ none ↔ (plan img (budgetOf s d)).ending ≠ .overrun := by
    rw [hres]
    cases (plan img (budgetOf s d)).ending <;> simp [PlanEnd.result]
  rw [hnone]
  refine and_congr_right fun _ => ⟨fun hkept v hv => ?_,kernelKept_of_high h hd hrun⟩
  by_contra hlow
  exact not_kept_of_low h hd hrun hk hv (by omega) hkept

/-- One page of code at `vaddr`. -/
def onePage (vaddr : ℕ) : Phdr := ⟨1,0,vaddr,4,4⟩
def highImage : Image := ⟨imageBytes 0x800000 [onePage 0x800000],fun _ => 0,by decide⟩
def lowImage : Image := ⟨imageBytes 0x100000 [onePage 0x100000],fun _ => 0,by decide⟩

theorem elfLoadUser_keepsKernel_highImage :
    (elfLoadUser highImage (4096*firstDirectory) oneDirectory.mach).1 ≠ none ∧
    KernelKept sampleLayout firstDirectory oneDirectory.mach
      (elfLoadUser highImage (4096*firstDirectory) oneDirectory.mach).2.mach := by
  have hpages : (plan highImage ⟨7935,{0,1}⟩).pages = [0x800000] := by decide +kernel
  have hend : (plan highImage ⟨7935,{0,1}⟩).ending.result highImage = some 0x800000 := by decide +kernel
  refine (elfLoadUser_keepsKernel_iff oneDirectory_separated (List.mem_singleton_self _)
    (kernelPtesUsed_of_identity oneDirectory_identity) highImage).mpr ?_
  rw [oneDirectory_budget,hpages]
  constructor
  · intro he
    rw [he] at hend
    cases hend
  · simp

/-- A program linked at 1 MB is loaded, and a kernel page table is changed. -/
theorem lowImage_changesKernel :
    (elfLoadUser lowImage (4096*firstDirectory) oneDirectory.mach).1 = some 0x100000 ∧
    ¬ KernelKept sampleLayout firstDirectory oneDirectory.mach
      (elfLoadUser lowImage (4096*firstDirectory) oneDirectory.mach).2.mach := by
  have hpages : (plan lowImage ⟨7935,{0,1}⟩).pages = [0x100000] := by decide +kernel
  have hend : (plan lowImage ⟨7935,{0,1}⟩).ending.result lowImage = some 0x100000 := by decide +kernel
  have hd : firstDirectory ∈ [firstDirectory] := List.mem_singleton_self _
  obtain ⟨hres,hrun,-,-⟩ := elfLoadUser_plan oneDirectory_separated hd lowImage
  rw [oneDirectory_budget] at hres hrun
  rw [hpages] at hrun
  refine ⟨hres.trans hend,?_⟩
  exact not_kept_of_low oneDirectory_separated hd hrun (kernelPtesUsed_of_identity oneDirectory_identity)
    List.mem_cons_self (by decide)

end VesperOS.KernelIsolation
