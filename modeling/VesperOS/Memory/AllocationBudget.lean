import VesperOS.Memory.AddressSpaces

/-! # How far an allocation gets

Whether `paging_alloc_user_pages` succeeds depends on two things only: how many
frames are free and which 4 MB regions already have a page table. A budget is
that pair. The pure function `Budget.run` predicts which pages of a request are
mapped, and the real loop is shown to agree with it.
-/
namespace VesperOS.AllocationBudget
open ByteMemory FrameAllocator Paging AddressSpaces

structure Budget where
  avail : ℕ
  tables : Finset ℕ

/-- One page costs a frame, and one more for the table of a region without one. -/
def Budget.map (b : Budget) (v : ℕ) : Option Budget :=
  if v/4194304 ∈ b.tables then
    if b.avail = 0 then none else some { b with avail := b.avail - 1 }
  else if b.avail < 2 then none else some ⟨b.avail - 2,insert (v/4194304) b.tables⟩

/-- The pages that are mapped before the frames run out, and what remains. -/
def Budget.run (b : Budget) : List ℕ → List ℕ × Option Budget
  | [] => ([],some b)
  | v :: vs =>
    match b.map v with
    | none => ([],none)
    | some b' => (v :: (b'.run vs).1,(b'.run vs).2)

/-- The budget of a directory in a machine state. -/
def budgetOf (s : Machine) (d : ℕ) : Budget :=
  ⟨freeCount s.pmm,(Finset.range 1024).filter (fun i => isPresent (entry s.mem (4096*d) i))⟩

theorem budget_avail (s : Machine) (d : ℕ) : (budgetOf s d).avail = freeCount s.pmm := by
  simp only [budgetOf]

theorem mem_tables {s : Machine} {d i : ℕ} :
    i ∈ (budgetOf s d).tables ↔ i < 1024 ∧ isPresent (entry s.mem (4096*d) i) = true := by
  simp [budgetOf]

theorem run_map_some {b b' : Budget} {v : ℕ} (h : b.map v = some b') (vs : List ℕ) :
    b.run (v :: vs) = (v :: (b'.run vs).1,(b'.run vs).2) := by
  simp only [Budget.run,h]

theorem run_map_none {b : Budget} {v : ℕ} (h : b.map v = none) (vs : List ℕ) :
    b.run (v :: vs) = ([],none) := by
  simp only [Budget.run,h]

theorem run_subset {b : Budget} {vs : List ℕ} {v : ℕ} (hv : v ∈ (b.run vs).1) : v ∈ vs := by
  induction vs generalizing b with
  | nil => exact hv
  | cons w vs ih =>
    cases hm : b.map w with
    | none =>
      rw [run_map_none hm] at hv
      cases hv
    | some b' =>
      rw [run_map_some hm] at hv
      rcases List.mem_cons.mp hv with rfl | hin
      · exact List.mem_cons_self
      · exact List.mem_cons_of_mem w (ih hin)

/-- A new directory has the two kernel tables and nothing else. -/
theorem budget_freshDir (K : KernelLayout) (m : Mem) {p q : Pmm} {d : ℕ} (ht : Takes p q d) :
    budgetOf ⟨freshDir K m d,q⟩ d = ⟨freeCount p - 1,{0,1}⟩ := by
  have hc := ht.count
  simp only [budgetOf,Budget.mk.injEq]
  refine ⟨by omega,?_⟩
  ext i
  simp only [Finset.mem_filter,Finset.mem_range,Finset.mem_insert,Finset.mem_singleton]
  by_cases hi : i < 2
  · rw [entry_freshDir_kernel K m hi,isPresent_iff,KernelLayout.pageTable]
    omega
  · constructor
    · rintro ⟨hlt,hp⟩
      rw [entry_freshDir_user K m (by omega) hlt] at hp
      cases hp
    · intro h
      omega

section Sim
variable {K : KernelLayout} {s : Machine} {live : List ℕ} (h : Separated K s live)
include h

theorem budget_linkTable {d i t : ℕ} {q : Pmm} (hd : d ∈ live) (hi : i < 1024) (ht : Takes s.pmm q t) :
    budgetOf ⟨linkTable s.mem d i t,q⟩ d = ⟨freeCount s.pmm - 1,insert i (budgetOf s d).tables⟩ := by
  have hdt : d ≠ t := ht.ne (h.dir_used hd)
  have hc := ht.count
  simp only [budgetOf,Budget.mk.injEq]
  refine ⟨by omega,?_⟩
  ext k
  simp only [Finset.mem_filter,Finset.mem_range,Finset.mem_insert]
  by_cases hk : k = i
  · subst hk
    rw [entry_linkTable_same s.mem ht.lt]
    simp [hi,isPresent_user]
  · simp only [hk,false_or,and_congr_right_iff]
    intro hlt
    rw [entry_linkTable_of_ne s.mem hdt hlt (Ne.symm hk)]

theorem budget_enter {d i j g : ℕ} {q : Pmm} (hd : d ∈ live) (hi : i < 1024) (hj : j < 1024)
    (hp : isPresent (entry s.mem (4096*d) i) = true) (hg : Takes s.pmm q g) :
    budgetOf ⟨linkPage s.mem (entry s.mem (4096*d) i/4096) j g,q⟩ d =
      ⟨freeCount s.pmm - 1,(budgetOf s d).tables⟩ := by
  have hne : d ≠ entry s.mem (4096*d) i/4096 := by
    rcases h.present_cases hd hi hp with hu | ⟨hi2,he⟩
    · exact (h.table_ne_dir hd hd hu).symm
    · rw [he]
      exact h.not_low hd (r := .dir) rfl (by have := K.tables_low; omega)
  have hc := hg.count
  simp only [budgetOf,Budget.mk.injEq]
  refine ⟨by omega,?_⟩
  ext k
  simp only [Finset.mem_filter,Finset.mem_range,and_congr_right_iff]
  intro hk
  rw [(sameFrame_linkPage s.mem hj hne).entry hk]

/-- One iteration of the real loop spends exactly what the budget predicts. -/
theorem map_pageMapped {d v : ℕ} {s' : Machine} (hd : d ∈ live) (hv : v < 2^32)
    (hm : PageMapped d v s s') : (budgetOf s d).map v = some (budgetOf s' d) := by
  obtain ⟨s₁,g,q,hr,hg,rfl⟩ := hm
  have hi : v/4194304 < 1024 := by omega
  obtain ⟨h₁,hp₁⟩ := h.tableReady hd hi hr
  have hc := hg.count
  rw [budget_enter h₁ hd hi (by omega) hp₁ hg]
  rcases hr with ⟨hp,rfl⟩ | ⟨hp,_,t,q',ht,rfl⟩
  · rw [Budget.map,if_pos (mem_tables.mpr ⟨hi,hp⟩),if_neg (by rw [budget_avail]; omega),budget_avail]
  · have hnot : v/4194304 ∉ (budgetOf s d).tables := by
      rw [mem_tables,hp]
      simp
    have hc' := ht.count
    rw [Budget.map,if_neg hnot,if_neg (by rw [budget_avail]; dsimp only at hc; omega),
      budget_linkTable h hd hi ht]
    rw [budget_avail]
    simp only [Option.some.injEq,Budget.mk.injEq,and_true]
    dsimp only at hc ⊢
    omega

/-- The real loop maps exactly the pages of the prediction, and reports success
exactly when the prediction does. -/
theorem allocUserPages_run {d : ℕ} (hd : d ∈ live) {vs : List ℕ} (hvs : ∀ v ∈ vs, v < 2^32) :
    (∃ s', PagesMapped d vs s s' ∧ allocUserPages (4096*d) vs s = (true,s') ∧
      (budgetOf s d).run vs = (vs,some (budgetOf s' d))) ∨
    ∃ ms s₁ s₂, PagesMapped d ms s s₁ ∧ (s₂ = s₁ ∨ ∃ i < 1024, TableReady d i s₁ s₂) ∧
      allocUserPages (4096*d) vs s = (false,s₂) ∧ (budgetOf s d).run vs = (ms,none) ∧ ∀ v ∈ ms, v ∈ vs := by
  induction vs generalizing s with
  | nil => exact Or.inl ⟨s,.nil s,rfl,rfl⟩
  | cons v vs ih =>
    have hv := hvs v List.mem_cons_self
    have hi : v/4194304 < 1024 := by omega
    rcases h.allocUserPage_cases hd hv with ⟨hp,h0,he⟩ | ⟨s₁,hr,h0,he⟩ | ⟨s₁,hm,he⟩
    · right
      have hnone : (budgetOf s d).map v = none := by
        rw [Budget.map,if_neg (by rw [mem_tables,hp]; simp),if_pos (by rw [budget_avail]; omega)]
      exact ⟨[],s,s,.nil s,Or.inl rfl,by simp [allocUserPages,he],run_map_none hnone vs,by simp⟩
    · right
      have hnone : (budgetOf s d).map v = none := by
        rcases hr with ⟨hp,rfl⟩ | ⟨hp,_,t,q,ht,rfl⟩
        · rw [Budget.map,if_pos (mem_tables.mpr ⟨hi,hp⟩),if_pos ((budget_avail _ _).trans h0)]
        · have hc := ht.count
          dsimp only at h0
          rw [Budget.map,if_neg (by rw [mem_tables,hp]; simp),if_pos (by rw [budget_avail]; omega)]
      exact ⟨[],s,s₁,.nil s,Or.inr ⟨_,hi,hr⟩,by simp [allocUserPages,he],run_map_none hnone vs,by simp⟩
    · have hmap := map_pageMapped h hd hv hm
      have hrest := fun w hw => hvs w (List.mem_cons_of_mem v hw)
      rcases ih (h.pageMapped hd hv hm) hrest with ⟨s',hms,he',hb⟩ | ⟨ms,s₂,s₃,hms,hlast,he',hb,hsub⟩
      · refine Or.inl ⟨s',.cons hm hms,by simp [allocUserPages,he,he'],?_⟩
        rw [run_map_some hmap,hb]
      · refine Or.inr ⟨v :: ms,s₂,s₃,.cons hm hms,hlast,by simp [allocUserPages,he,he'],?_,?_⟩
        · rw [run_map_some hmap,hb]
        · intro w hw
          rcases List.mem_cons.mp hw with rfl | hw
          · exact List.mem_cons_self
          · exact List.mem_cons_of_mem _ (hsub w hw)

end Sim

end VesperOS.AllocationBudget
