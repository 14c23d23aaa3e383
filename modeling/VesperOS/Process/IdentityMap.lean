import VesperOS.Loader.LoadPointers
import VesperOS.Memory.BootMap
import VesperOS.Process.LoadedSpace

/-! # Kernel pointers in every history

Runs of `cmd_exec`, of the operations on processes, and of stores into user pages, from any
boot memory map. For each step the physical addresses that the paging code and the loader
use as pointers are listed. They all lie in the identity-mapped 8 MB exactly when the boot
map gives the allocator no frame above 8 MB and no copy of the loader leaves its frame. The
programs have no page below 8 MB, so that the 8 MB stay mapped to themselves.
-/
namespace VesperOS.IdentityMap
open ByteMemory FrameAllocator Paging AddressSpaces Translation ElfImage LoadPlan ProcessTable Scheduler Exec
open SpaceLifecycle KernelPointers LoadPointers LoadedSpace BootMap

/-! ## Pointers of a step -/

def execPointers (K : KernelLayout) (file : Option Image) (k : Kernel) : List ℕ :=
  file.elim [] fun img =>
    let c := pagingCreatePd K k.mach
    createPdPointers k.mach ++ if c.1 = 0 then [] else
      let l := elfLoadUser img c.1 c.2
      elfLoadUserPointers img c.1 c.2 ++ l.1.elim [] fun entry =>
        if entry = 0 then destroyPdPointers c.1 l.2.mach else
          let a := pagingAllocUserPages c.1 stackBase userStackPages l.2.mach
          allocUserPagesPointers c.1 (pagesFrom stackBase userStackPages) l.2.mach ++
            if a.1 = 0 ∧ (processCreateUser entry userStackTop c.1 { k with mach := a.2 }).1.isSome then []
            else destroyPdPointers c.1 a.2

def terminatePointers (c : Slot) (k : Kernel) : List ℕ :=
  if (k.table c).pdPhys ≠ 0 then destroyPdPointers (k.table c).pdPhys k.mach else []

/-- Only `process_exit` and `process_kill` reach the paging code. -/
def callPointers (k : Kernel) : KernelCall → List ℕ
  | .exit => k.current.elim [] fun c => terminatePointers c k
  | .kill pid => (killSlot pid k).elim [] fun c => terminatePointers c k
  | _ => []

def pointers (K : KernelLayout) (k : Kernel) : Act → List ℕ
  | .exec file => execPointers K file k
  | .call call => callPointers k call
  | .store _ _ => []

/-! ## Histories -/

/-- One step; the kernel does not survive a copy that leaves its frame. A store goes to a page of some process that
still has its directory. -/
inductive Step (K : KernelLayout) : Kernel → Act → Kernel → Prop
  | returned {k k' : Kernel} {file : Option Image} : cmdExec K file k = .returned k' → Step K k (.exec file) k'
  | spawned {k k' : Kernel} {file : Option Image} {i : Slot} : cmdExec K file k = .spawned i k' →
      Step K k (.exec file) (processYield K k')
  | call {k : Kernel} {call : KernelCall} : Direct call → Step K k (.call call) (call.apply K k)
  | store {k : Kernel} {c : Slot} {x i j : ℕ} {b : UInt8} : (k.table c).pdPhys ≠ 0 →
      Holds k.mach.mem ((k.table c).pdPhys/4096) (.page i j) (x/4096) →
      Step K k (.store x b) { k with mach := ⟨Function.update k.mach.mem x b,k.mach.pmm⟩ }

inductive Reached (K : KernelLayout) (k₀ : Kernel) : Kernel → Prop
  | start : Reached K k₀ k₀
  | step {k k' : Kernel} {a : Act} : Reached K k₀ k → KeepsMap k a → Step K k a k' → Reached K k₀ k'

/-- The kernel after `process_init`, with what was in memory and in the table before. -/
def booted (K : KernelLayout) (m : Mem) (mmap : BootMmap) (old : Slot → Proc) : Kernel :=
  processInit K ⟨pagingInit K m,pmmInit mmap⟩ old

/-! ## The invariant -/

/-- Every slot with a directory has one of its own among the live ones, and all frames lie
below 8 MB. -/
structure Directories (K : KernelLayout) (k : Kernel) (live : List ℕ) : Prop where
  separated : Separated K k.mach live
  low : LowFrames k.mach live
  dir : ∀ i, (k.table i).pdPhys ≠ 0 → ∃ d ∈ live, (k.table i).pdPhys = 4096*d
  own : ∀ i j, (k.table i).pdPhys ≠ 0 → (k.table i).pdPhys = (k.table j).pdPhys → i = j

section Steps
variable {K : KernelLayout} {k k' : Kernel} {live : List ℕ} (h : Directories K k live)
include h

theorem Directories.setMach {mach : Machine} (hs : Separated K mach live) (hl : LowFrames mach live) :
    Directories K { k with mach := mach } live := ⟨hs,hl,h.dir,h.own⟩

/-- Slots may lose their directory, and nothing else matters. -/
theorem Directories.keep (hm : k'.mach = k.mach)
    (hp : ∀ i, (k'.table i).pdPhys = (k.table i).pdPhys ∨ (k'.table i).pdPhys = 0) : Directories K k' live := by
  have hsame : ∀ i, (k'.table i).pdPhys ≠ 0 → (k'.table i).pdPhys = (k.table i).pdPhys :=
    fun i hi => (hp i).resolve_right hi
  refine ⟨hm ▸ h.separated,hm ▸ h.low,fun i hi => ?_,fun i j hi he => ?_⟩
  · have he := hsame i hi
    rw [he] at hi ⊢
    exact h.dir i hi
  · have hj : (k'.table j).pdPhys ≠ 0 := he ▸ hi
    rw [hsame i hi,hsame j hj] at he
    exact h.own i j (hsame i hi ▸ hi) he

theorem Directories.terminate (c : Slot) : ∃ live', Directories K (ProcessTable.terminate c k) live' := by
  by_cases hpd : (k.table c).pdPhys ≠ 0
  · obtain ⟨d,hd,hdc⟩ := h.dir c hpd
    have hmach : (ProcessTable.terminate c k).mach = pagingDestroyPd (4096*d) k.mach := by
      rw [terminate_mach_eq,if_pos hpd,hdc]
    refine ⟨live.erase d,?_,?_,terminate_dir h.own h.dir hdc,terminate_own h.own c⟩
    · rw [hmach]
      exact separated_destroyPd h.separated hd
    · rw [hmach]
      exact h.low.destroyPd hd
  · refine ⟨live,h.keep ?_ fun i => ?_⟩
    · rw [terminate_mach_eq,if_neg hpd]
    · by_cases hi : i = c
      · right
        rw [hi,terminate_self]
      · left
        rw [terminate_other k hi]

theorem Directories.yield : Directories K (processYield K k) live :=
  h.keep (processYield_mach K k) fun i => Or.inl (processYield_pdPhys K k i)

theorem Directories.apply {call : KernelCall} (hd : Direct call) : ∃ live', Directories K (call.apply K k) live' := by
  cases call with
  | create =>
    refine ⟨live,h.keep ?_ fun i => ?_⟩
    · change (createProc false 0 0 0 k).2.mach = k.mach
      unfold createProc
      split <;> rfl
    · change ((createProc false 0 0 0 k).2.table i).pdPhys = _ ∨ ((createProc false 0 0 0 k).2.table i).pdPhys = 0
      unfold createProc
      cases allocSlot k with
      | none => exact Or.inl rfl
      | some j =>
        by_cases hi : i = j
        · right
          simp [Kernel.setProc,hi]
        · left
          simp [Kernel.setProc,hi]
  | createUser userEip userEsp pdPhys => exact hd.elim
  | exit =>
    change ∃ live', Directories K (processExit K k) live'
    unfold processExit
    cases k.current with
    | none => exact ⟨live,h.yield⟩
    | some c =>
      obtain ⟨live',h'⟩ := h.terminate c
      exact ⟨live',h'.yield⟩
  | kill pid =>
    change ∃ live', Directories K (processKill pid k).2 live'
    unfold processKill
    cases killSlot pid k with
    | none => exact ⟨live,h⟩
    | some c => exact h.terminate c
  | block =>
    change ∃ live', Directories K (processBlock K k) live'
    unfold processBlock
    cases k.current with
    | none => exact ⟨live,h.yield⟩
    | some c =>
      have h' : Directories K (k.setState c .blocked) live := by
        refine h.keep rfl fun i => Or.inl ?_
        rw [setState_table]
      exact ⟨live,h'.yield⟩
  | yield => exact ⟨live,h.yield⟩
  | wake p =>
    have hr := relabelled_wake p k
    exact ⟨live,h.keep hr.mach fun i => Or.inl (hr.pdPhys i)⟩
  | wakeAllBlocked =>
    have hr := relabelled_wakeAllBlocked k
    exact ⟨live,h.keep hr.mach fun i => Or.inl (hr.pdPhys i)⟩

/-- A byte of a user page is neither directory nor table. -/
theorem Directories.store {c : Slot} {x i j : ℕ} (b : UInt8) (hpd : (k.table c).pdPhys ≠ 0)
    (hx : Holds k.mach.mem ((k.table c).pdPhys/4096) (.page i j) (x/4096)) :
    Directories K { k with mach := ⟨Function.update k.mach.mem x b,k.mach.pmm⟩ } live := by
  obtain ⟨d,hd,he⟩ := h.dir c hpd
  rw [he,Nat.mul_div_cancel_left d (by decide)] at hx
  have hdata := dataFrame_page h.separated hd hx
  have hothers : ∀ n, n ≠ x/4096 → SameFrame k.mach.mem (Function.update k.mach.mem x b) n :=
    fun _ => sameFrame_store k.mach.mem b
  exact h.setMach (separated_dataFrame h.separated hdata hothers) (h.low.dataFrame hdata hothers)

theorem Directories.execReturned {file : Option Image} (he : cmdExec K file k = .returned k') :
    Directories K k' live := by
  obtain ⟨mach,rfl⟩ := (cmdExec_table K file k).1 k' he
  cases file with
  | none =>
    have hk : k = { k with mach := mach } := ExecResult.returned.inj he
    rw [← hk]
    exact h
  | some img =>
    rcases cmdExec_cases h.separated img with ⟨_,he'⟩ | ⟨d,q,ht,⟨_,he'⟩ | ⟨_,s',hr,⟨k₁,he',hm⟩ | ⟨_,_,he',_⟩⟩⟩
    · rw [he'] at he
      rw [← ExecResult.returned.inj he]
      exact h
    · rw [he'] at he
      cases he
    · have hd : d ∈ d :: live := List.mem_cons_self
      have h₁ := h.separated.freshDir ht
      have hsep := separated_destroyPd (hr.separated h₁ hd) hd
      have hlow := (low_loadRun h₁ hd (h.low.freshDir h.separated ht) hr).destroyPd hd
      rw [List.erase_cons_head] at hsep hlow
      rw [he'] at he
      rw [ExecResult.returned.inj he] at hm
      dsimp only at hm
      rw [hm]
      exact h.setMach hsep hlow
    · rw [he'] at he
      cases he

theorem Directories.execSpawned {file : Option Image} {i : Slot} (he : cmdExec K file k = .spawned i k') :
    ∃ live', Directories K k' live' := by
  cases file with
  | none => cases he
  | some img =>
    rcases cmdExec_cases h.separated img with ⟨_,he'⟩ | ⟨d,q,ht,⟨_,he'⟩ | ⟨_,s',hr,⟨k₁,he',_⟩ | ⟨j,k₁,he',hm,hpd⟩⟩⟩
    · rw [he'] at he
      cases he
    · rw [he'] at he
      cases he
    · rw [he'] at he
      cases he
    · obtain ⟨entry,pd,mach,hc⟩ := (cmdExec_table K (some img) k).2 i k' he
      rw [he'] at he
      obtain ⟨rfl,rfl⟩ := ExecResult.spawned.inj he
      have hd : d ∈ d :: live := List.mem_cons_self
      have hnot : d ∉ live := fun hd => ht.ne (h.separated.dir_used hd) rfl
      have h₁ := h.separated.freshDir ht
      have hother : ∀ l, l ≠ j → (k₁.table l).pdPhys = (k.table l).pdPhys := by
        unfold processCreateUser createProc at hc
        cases ha : allocSlot { k with mach := mach } with
        | none =>
          rw [ha] at hc
          cases hc
        | some j' =>
          rw [ha] at hc
          obtain ⟨hj,rfl⟩ := Prod.mk.inj hc
          cases hj
          intro l hl
          simp [Kernel.setProc,hl]
      have hfresh : ∀ l, l ≠ j → (k₁.table l).pdPhys ≠ 0 → (k₁.table l).pdPhys ≠ 4096*d := by
        intro l hl hl0 hle
        rw [hother l hl] at hl0 hle
        obtain ⟨d',hd',he''⟩ := h.dir l hl0
        obtain rfl : d = d' := by omega
        exact hnot hd'
      refine ⟨d :: live,?_,?_,fun l hl => ?_,fun a b ha hab => ?_⟩
      · rw [hm]
        exact hr.separated h₁ hd
      · rw [hm]
        exact low_loadRun h₁ hd (h.low.freshDir h.separated ht) hr
      · by_cases hlj : l = j
        · exact ⟨d,hd,hlj ▸ hpd⟩
        · rw [hother l hlj] at hl ⊢
          obtain ⟨d',hd',he''⟩ := h.dir l hl
          exact ⟨d',List.mem_cons_of_mem _ hd',he''⟩
      · by_cases haj : a = j <;> by_cases hbj : b = j
        · rw [haj,hbj]
        · rw [haj] at ha hab
          exact absurd (hab.symm.trans hpd) (hfresh b hbj (hab ▸ ha))
        · rw [hbj] at hab
          exact absurd (hab.trans hpd) (hfresh a haj ha)
        · rw [hother a haj] at ha hab
          rw [hother b hbj] at hab
          exact h.own a b ha hab

theorem Directories.step {a : Act} (hstep : Step K k a k') : ∃ live', Directories K k' live' := by
  cases hstep with
  | returned he => exact ⟨live,h.execReturned he⟩
  | spawned he =>
    obtain ⟨live',h'⟩ := h.execSpawned he
    exact ⟨live',h'.yield⟩
  | call hd => exact h.apply hd
  | store hpd hx => exact ⟨live,h.store _ hpd hx⟩

theorem Directories.identity {a : Act} (hid : IdentityMapped K k.mach.mem) (hmap : KeepsMap k a)
    (hstep : Step K k a k') : IdentityMapped K k'.mach.mem := by
  cases hstep with
  | returned he => exact (cmdExec_identity h.separated hid hmap).1 k' he
  | @spawned k₁ file i he =>
    rw [processYield_mach]
    exact (cmdExec_identity h.separated hid hmap).2 i k₁ he
  | call _ =>
    rw [apply_mem]
    exact hid
  | @store c x i j b hpd hx =>
    obtain ⟨d,hd,he⟩ := h.dir c hpd
    rw [he,Nat.mul_div_cancel_left d (by decide)] at hx
    exact identity_store h.separated hid hd b hx

/-! ## Pointers of a state that keeps it -/

theorem Directories.terminatePointers_low (c : Slot) : ∀ p ∈ terminatePointers c k, p < mappedEnd := by
  unfold terminatePointers
  intro p hp
  split at hp
  · rename_i hpd
    obtain ⟨d,hd,he⟩ := h.dir c hpd
    rw [he] at hp
    exact destroyPd_pointers h.separated h.low hd p hp
  · exact absurd hp List.not_mem_nil

theorem Directories.callPointers_low (call : KernelCall) : ∀ p ∈ callPointers k call, p < mappedEnd := by
  cases call with
  | exit =>
    change ∀ p ∈ k.current.elim [] fun c => terminatePointers c k, p < mappedEnd
    cases k.current with
    | none => exact fun p hp => absurd hp List.not_mem_nil
    | some c => exact h.terminatePointers_low c
  | kill pid =>
    change ∀ p ∈ (killSlot pid k).elim [] fun c => terminatePointers c k, p < mappedEnd
    cases killSlot pid k with
    | none => exact fun p hp => absurd hp List.not_mem_nil
    | some c => exact h.terminatePointers_low c
  | _ => exact fun p hp => absurd hp List.not_mem_nil

theorem Directories.execPointers_low (file : Option Image) (hfits : Fits k (.exec file)) :
    ∀ p ∈ execPointers K file k, p < mappedEnd := by
  cases file with
  | none => exact fun p hp => absurd hp List.not_mem_nil
  | some img =>
    intro p hp
    unfold execPointers at hp
    simp only [Option.elim_some] at hp
    rcases List.mem_append.mp hp with hp | hp
    · exact createPd_pointers h.separated h.low p hp
    · rcases h.separated.createPd_cases with ⟨_,he⟩ | ⟨d,q,ht,he⟩
      · rw [he,if_pos rfl] at hp
        exact absurd hp List.not_mem_nil
      · have hd : d ∈ d :: live := List.mem_cons_self
        have h₁ := h.separated.freshDir ht
        have hl₁ := h.low.freshDir h.separated ht
        have hrun := (elfLoadUser_plan h₁ hd img).2.1
        have hsep := hrun.separated h₁ hd
        have hlow := low_loadRun h₁ hd hl₁ hrun
        rw [he] at hp
        dsimp only at hp
        split at hp
        · exact absurd hp List.not_mem_nil
        · rcases List.mem_append.mp hp with hp | hp
          · refine elfLoadUser_pointers h₁ hd hl₁ img ?_ p hp
            rw [AllocationBudget.budget_freshDir K _ ht]
            exact hfits fun h0 => by
              have hcount := ht.count
              omega
          · generalize elfLoadUser img (4096*d) ⟨freshDir K k.mach.mem d,q⟩ = loaded at hp hsep hlow
            obtain ⟨res,s⟩ := loaded
            cases res with
            | none => exact absurd hp List.not_mem_nil
            | some entry =>
              rw [Option.elim_some] at hp
              split at hp
              · exact destroyPd_pointers hsep hlow hd p hp
              · rcases List.mem_append.mp hp with hp | hp
                · exact allocUserPages_pointers hsep hlow hd stackPages_lt p hp
                · split at hp
                  · exact absurd hp List.not_mem_nil
                  · rw [pagingAllocUserPages_snd] at hp
                    exact destroyPd_pointers (hsep.allocUserPages hd stackPages_lt)
                      (LowFrames.allocUserPages hsep hlow hd stackPages_lt) hd p hp

/-- A copy that leaves its frame does not stop at 8 MB. -/
theorem Directories.exec_overrun {file : Option Image} (hover : ¬ Fits k (.exec file)) :
    ∃ p ∈ execPointers K file k, mappedEnd ≤ p := by
  cases file with
  | none => exact absurd trivial hover
  | some img =>
    simp only [Fits,Classical.not_imp,ne_eq,not_not] at hover
    obtain ⟨hfree,hover⟩ := hover
    rcases h.separated.createPd_cases with ⟨h0,_⟩ | ⟨d,q,ht,he⟩
    · exact absurd h0 hfree
    · rw [← AllocationBudget.budget_freshDir K _ ht] at hover
      obtain ⟨p,hp,hge⟩ := elfLoadUser_overrun (h.separated.freshDir ht) List.mem_cons_self img hover
      refine ⟨p,?_,hge⟩
      unfold execPointers
      simp only [Option.elim_some]
      rw [he,if_neg ht.addr_ne_zero]
      exact List.mem_append_right _ (List.mem_append_left _ hp)

theorem Directories.pointers_low_iff (a : Act) : (∀ p ∈ pointers K k a, p < mappedEnd) ↔ Fits k a := by
  cases a with
  | exec file =>
    refine ⟨fun hlow => ?_,h.execPointers_low file⟩
    by_contra hover
    obtain ⟨p,hp,hge⟩ := h.exec_overrun hover
    exact absurd (hlow p hp) (Nat.not_lt.mpr hge)
  | call call => exact iff_of_true (h.callPointers_low call) trivial
  | store x b => exact iff_of_true (fun p hp => absurd hp List.not_mem_nil) trivial

end Steps

/-! ## The boot map decides -/

/-- There is a map, and none of its usable entries has a whole frame in the 24 MB above. -/
def LowMap (mmap : BootMmap) : Prop :=
  mmap.entries ≠ [] ∧ ∀ e ∈ mmap.entries, ∀ f ∈ entryFrames e, f < mappedFrames

theorem lowFrames_init {mmap : BootMmap} (h : LowMap mmap) (m : Mem) : LowFrames ⟨m,pmmInit mmap⟩ [] := by
  refine ⟨fun f hf => ?_,fun d hd => absurd hd List.not_mem_nil⟩
  have hrel := ((init_free_iff h.1 f).mp hf).2
  unfold releasedFrames at hrel
  obtain ⟨e,he,hfe⟩ := List.mem_flatMap.mp hrel
  exact h.2 e he f hfe

/-- Without a map all of the 31 MB above the first are free. -/
theorem fixed_isUsed {mmap : BootMmap} (h : mmap.entries = []) {f : ℕ} (h1 : lowFrames ≤ f) (h2 : f < totalFrames) :
    pmmIsUsed (pmmInit mmap) f = false := by
  have hsub : freeSet (pmmInit mmap) ⊆ Finset.Ico lowFrames totalFrames := by
    intro g hg
    rw [mem_freeSet] at hg
    rw [Finset.mem_Ico]
    refine ⟨?_,hg.1⟩
    by_contra hlt
    rw [(pmmInit_sound mmap).low g (by omega)] at hg
    cases hg.2
  have hcard := freeCount_pmmInit_nil mmap (by rw [h]; rfl)
  have hset := Finset.eq_of_subset_of_card_le hsub (by rw [Nat.card_Ico,← hcard]; exact le_rfl)
  have hmem : f ∈ freeSet (pmmInit mmap) := by
    rw [hset,Finset.mem_Ico]
    exact ⟨h1,h2⟩
  exact (mem_freeSet.mp hmem).2

theorem free_of_not_lowMap {mmap : BootMmap} (h : ¬ LowMap mmap) :
    ∃ f, mappedFrames ≤ f ∧ f < totalFrames ∧ pmmIsUsed (pmmInit mmap) f = false := by
  by_cases hnil : mmap.entries = []
  · exact ⟨mappedFrames,le_rfl,by decide,fixed_isUsed hnil (by decide) (by decide)⟩
  · have hhigh : ∃ e ∈ mmap.entries, ∃ f ∈ entryFrames e, mappedFrames ≤ f := by
      by_contra hno
      push Not at hno
      exact h ⟨hnil,hno⟩
    obtain ⟨e,he,f,hf,hge⟩ := hhigh
    have hrel : f ∈ releasedFrames mmap := List.mem_flatMap.mpr ⟨e,he,hf⟩
    have hlow : lowFrames ≤ f := Nat.le_trans (by decide) hge
    exact ⟨f,hge,mem_releasedFrames_lt hrel,(init_free_iff hnil f).mpr ⟨hlow,hrel⟩⟩

theorem createPd_fst (K : KernelLayout) (s : Machine) : (pagingCreatePd K s).1 = (pmmAllocFrame s.pmm).1 := by
  unfold pagingCreatePd
  generalize pmmAllocFrame s.pmm = r
  obtain ⟨pd,q⟩ := r
  dsimp only
  by_cases h : pd = 0
  · rw [if_pos h,h]
  · rw [if_neg h]

/-- The new directory is among the pointers of the command. -/
theorem directory_pointer {K : KernelLayout} {k : Kernel} {d : ℕ} {mach : Machine}
    (he : pagingCreatePd K k.mach = (4096*d,mach)) (hpos : ¬ 4096*d = 0) (img : Image) :
    4096*d ∈ execPointers K (some img) k := by
  have hfst := createPd_fst K k.mach
  rw [he] at hfst
  dsimp only at hfst
  apply List.mem_append_left
  unfold createPdPointers
  rw [← hfst,if_neg hpos]
  exact List.mem_singleton_self _

/-- A free frame above 8 MB becomes the directory of the next process, or is reached by its pages. -/
theorem exec_high_pointer {K : KernelLayout} {k : Kernel} {live : List ℕ} (h : Separated K k.mach live) {f : ℕ}
    (hhigh : mappedFrames ≤ f) (hlt : f < totalFrames) (hf : pmmIsUsed k.mach.pmm f = false) :
    ∃ n < 2^19, ∃ p ∈ execPointers K (some (bssImage n)) k, mappedEnd ≤ p := by
  rcases h.createPd_cases with ⟨h0,_⟩ | ⟨d,q,ht,he⟩
  · exact absurd h0 (freeCount_pos hlt hf)
  · have hpos : ¬ 4096*d = 0 := ht.addr_ne_zero
    by_cases hd : mappedFrames ≤ d
    · exact ⟨0,by decide,4096*d,directory_pointer he hpos _,high_pointer hd⟩
    · obtain ⟨n,hn,p,hp,hge⟩ := exists_high_pointer (List.mem_cons_self (a := d) (l := live)) hhigh hlt (h.freshDir ht)
        (free_of_takes ht (by omega) hf)
      refine ⟨n,hn,p,?_,hge⟩
      apply List.mem_append_right
      rw [he]
      dsimp only
      rw [if_neg hpos]
      exact List.mem_append_left _ hp

theorem booted_mach (K : KernelLayout) (m : Mem) (mmap : BootMmap) (old : Slot → Proc) :
    (booted K m mmap old).mach = ⟨pagingInit K m,pmmInit mmap⟩ := rfl

theorem separated_booted (K : KernelLayout) (m : Mem) (mmap : BootMmap) (old : Slot → Proc) :
    Separated K (booted K m mmap old).mach [] :=
  separated_nil (pmmInit_sound mmap) (pagingInit_identityMapped K m)

theorem directories_booted (K : KernelLayout) (m : Mem) {mmap : BootMmap} (old : Slot → Proc) (h : LowMap mmap) :
    Directories K (booted K m mmap old) [] := by
  refine ⟨separated_booted K m mmap old,lowFrames_init h _,fun i hi => ?_,fun i j hi => ?_⟩
  · exact absurd (processInit_slot K _ old i).1 hi
  · exact absurd (processInit_slot K _ old i).1 hi

theorem directories_reached {K : KernelLayout} {m : Mem} {mmap : BootMmap} {old : Slot → Proc} {k : Kernel}
    (hmap : LowMap mmap) (hr : Reached K (booted K m mmap old) k) :
    (∃ live, Directories K k live) ∧ IdentityMapped K k.mach.mem := by
  induction hr with
  | start => exact ⟨⟨[],directories_booted K m old hmap⟩,pagingInit_identityMapped K m⟩
  | step _ hkeeps hstep ih =>
    obtain ⟨⟨live,h⟩,hid⟩ := ih
    exact ⟨h.step hstep,h.identity hid hkeeps hstep⟩

theorem fits_bssImage (k : Kernel) {n : ℕ} (hn : n < 2^19) : Fits k (.exec (some (bssImage n))) := by
  intro _
  apply plan_fits
  intro i hi
  rw [bss_phnum] at hi
  obtain rfl : i = 0 := by omega
  rw [bss_phdr (by omega)]
  unfold PageFill.Overlong
  dsimp only
  omega

theorem keepsMap_bssImage (k : Kernel) {n : ℕ} (hn : n < 2^19) : KeepsMap k (.exec (some (bssImage n))) := by
  intro v hv
  obtain ⟨i,hi,hpage⟩ := plan_pages hv
  rw [bss_phnum] at hi
  obtain rfl : i = 0 := by omega
  rw [bss_pages hn] at hpage
  obtain ⟨j,hj,rfl⟩ := List.mem_map.mp hpage
  have hlt := List.mem_range.mp hj
  omega

/-- In the histories from a boot map whose programs have no page below 8 MB, the calls without a copy that leaves its
frame keep all pointers in the first 8 MB exactly when the map leaves no frame above 8 MB to the allocator. With such a
map the first 8 MB stay mapped to themselves, and a call keeps to them exactly when it makes no such copy. -/
theorem pointers_mapped_iff (K : KernelLayout) (m : Mem) (mmap : BootMmap) (old : Slot → Proc) :
    ((∀ k, Reached K (booted K m mmap old) k → ∀ a, KeepsMap k a → Fits k a →
      ∀ p ∈ pointers K k a, p < mappedEnd) ↔ LowMap mmap) ∧
    (LowMap mmap → ∀ k, Reached K (booted K m mmap old) k → IdentityMapped K k.mach.mem ∧
      ∀ a, KeepsMap k a → ((∀ p ∈ pointers K k a, p < mappedEnd) ↔ Fits k a)) := by
  have hiff : LowMap mmap → ∀ k, Reached K (booted K m mmap old) k → IdentityMapped K k.mach.mem ∧
      ∀ a, KeepsMap k a → ((∀ p ∈ pointers K k a, p < mappedEnd) ↔ Fits k a) := by
    intro hmap k hr
    obtain ⟨⟨live,h⟩,hid⟩ := directories_reached hmap hr
    exact ⟨hid,fun a _ => h.pointers_low_iff a⟩
  refine ⟨⟨fun hall => ?_,fun hmap k hr a hkeeps => ((hiff hmap k hr).2 a hkeeps).mpr⟩,hiff⟩
  by_contra hno
  obtain ⟨f,hge,hlt,hf⟩ := free_of_not_lowMap hno
  obtain ⟨n,hn,p,hp,hhigh⟩ := exec_high_pointer (separated_booted K m mmap old) hge hlt hf
  have hlow := hall _ .start (.exec (some (bssImage n))) (keepsMap_bssImage _ hn) (fits_bssImage _ hn) p hp
  omega

/-- Usable memory between 8 MB and 16 MB only. -/
def highMap : BootMmap := ⟨[⟨0x800000,0x800000,1⟩],by decide⟩

theorem highMap_frame : 2048 ∈ releasedFrames highMap := by
  refine List.mem_flatMap.mpr ⟨⟨0x800000,0x800000,1⟩,List.mem_singleton_self _,?_⟩
  rw [mem_entryFrames]
  decide

/-- Already the directory of the first program lies above the identity map. -/
theorem first_directory_unmapped : ∃ k, Reached sampleLayout (booted sampleLayout (fun _ => 0) highMap
    fun _ => ⟨⟨none,0⟩,0,.unused,0,false,0,0⟩) k ∧
    ∃ p ∈ pointers sampleLayout k (.exec (some userImage)), mappedEnd ≤ p := by
  have hne : highMap.entries ≠ [] := List.cons_ne_nil _ _
  have hsep := separated_booted sampleLayout (fun _ => 0) highMap fun _ => ⟨⟨none,0⟩,0,.unused,0,false,0,0⟩
  refine ⟨_,.start,?_⟩
  rcases hsep.createPd_cases with ⟨h0,_⟩ | ⟨d,q,ht,he⟩
  · rw [booted_mach] at h0
    dsimp only at h0
    have hfree := (init_free_iff hne 2048).mpr ⟨by decide,highMap_frame⟩
    have hlt : 2048 < totalFrames := by decide
    exact absurd h0 (freeCount_pos hlt hfree)
  · have hunused := ht.unused
    rw [booted_mach] at hunused
    dsimp only at hunused
    obtain ⟨e,hmem,hf⟩ := List.mem_flatMap.mp ((init_free_iff hne d).mp hunused).2
    obtain rfl := List.mem_singleton.mp hmem
    have hge : mappedEnd ≤ 4096*d := (entryFrames_inside hf).2.1
    refine ⟨4096*d,directory_pointer he ?_ userImage,hge⟩
    unfold mappedEnd at hge
    omega

end VesperOS.IdentityMap
