import VesperOS.Memory.AddressSpaces

/-! # The life of address spaces

`paging_init` builds the kernel tables; from then on directories are created,
filled and destroyed in any order. A run is any interleaving of these calls over
any number of directories, and the separation invariant holds in all of its states.
-/
namespace VesperOS.SpaceLifecycle
open ByteMemory FrameAllocator Paging AddressSpaces Ownership

/-! ## `paging_init` -/

/-- The kernel's view of the first 8 MB as `paging_init` leaves it. -/
structure IdentityMapped (K : KernelLayout) (m : Mem) : Prop where
  directory : ∀ t < 2, entry m K.pageDirectory t = K.pageTable t + 3
  tables : ∀ t < 2, ∀ i < 1024, entry m (K.pageTable t) i = 4096*(1024*t+i) + 3

theorem identityTable_upTo (K : KernelLayout) {t : ℕ} (ht : t < 2) (m : Mem) (n : ℕ) (hn : n ≤ 1024) :
    (∀ i < n, entry ((List.range n).foldl (fun m i => setEntry m (K.pageTable t) i
      ((t*4194304+i*4096) ||| pagePresent ||| pageWritable)) m) (K.pageTable t) i = 4096*(1024*t+i) + 3) ∧
    ∀ k, k ≠ K.tablesFrame+t → SameFrame m ((List.range n).foldl (fun m i => setEntry m (K.pageTable t) i
      ((t*4194304+i*4096) ||| pagePresent ||| pageWritable)) m) k := by
  induction n with
  | zero => exact ⟨by simp,fun k _ => SameFrame.refl m k⟩
  | succ n ih =>
    obtain ⟨h1,h2⟩ := ih (by omega)
    have hv : ((t*4194304+n*4096) ||| pagePresent ||| pageWritable) = 4096*(1024*t+n)+3 := by
      rw [show t*4194304+n*4096 = 4096*(1024*t+n) by ring,kernel_flags]
    rw [List.range_succ,List.foldl_append,List.foldl_cons,List.foldl_nil,hv]
    refine ⟨fun i hi => ?_,fun k hk => (h2 k hk).trans (sameFrame_setEntry _ _ (by omega) hk)⟩
    by_cases he : i = n
    · subst he
      exact entry_setEntry_same _ _ _ _ (by omega)
    · rw [entry_setEntry_of_ne _ _ (by omega) (by simp only [KernelLayout.pageTable]; omega)
        (by simp only [KernelLayout.pageTable]; omega)]
      exact h1 i (by omega)

theorem entry_identityTable (K : KernelLayout) {t i : ℕ} (ht : t < 2) (hi : i < 1024) (m : Mem) :
    entry (identityTable K t m) (K.pageTable t) i = 4096*(1024*t+i) + 3 :=
  (identityTable_upTo K ht m 1024 le_rfl).1 i hi

theorem sameFrame_identityTable (K : KernelLayout) {t k : ℕ} (ht : t < 2) (m : Mem)
    (hk : k ≠ K.tablesFrame+t) : SameFrame m (identityTable K t m) k :=
  (identityTable_upTo K ht m 1024 le_rfl).2 k hk

theorem pagingInit_identityMapped (K : KernelLayout) (m : Mem) : IdentityMapped K (pagingInit K m) := by
  have hdis := K.disjoint
  have hinit : pagingInit K m = setEntry (identityTable K 1 (setEntry (identityTable K 0
      (memset m K.pageDirectory 0 4096)) K.pageDirectory 0 (K.pageTable 0+3)))
      K.pageDirectory 1 (K.pageTable 1+3) := by
    simp only [pagingInit,List.range_succ,List.range_zero,List.nil_append,List.cons_append,
      List.foldl_cons,List.foldl_nil,KernelLayout.pageTable,kernel_flags]
  have h0 := K.pageTable_lt (t := 0) (by omega)
  have h1 := K.pageTable_lt (t := 1) (by omega)
  have hd0 : K.directoryFrame ≠ K.tablesFrame+0 := by omega
  have hd1 : K.directoryFrame ≠ K.tablesFrame+1 := by omega
  rw [hinit]
  constructor
  · intro t ht
    obtain rfl | rfl : t = 0 ∨ t = 1 := by omega
    · rw [entry_setEntry_of_ne _ _ (by omega) (by simp only [KernelLayout.pageDirectory]; omega)
        (by simp only [KernelLayout.pageDirectory]; omega),KernelLayout.pageDirectory,
        (sameFrame_identityTable K (by omega) _ hd1).entry (by omega)]
      exact entry_setEntry_same _ _ _ _ h0
    · exact entry_setEntry_same _ _ _ _ h1
  · intro t ht i hi
    obtain rfl | rfl : t = 0 ∨ t = 1 := by omega
    · have hs := (sameFrame_setEntry (identityTable K 0 (memset m K.pageDirectory 0 4096))
        (n := K.directoryFrame) (k := K.tablesFrame+0) (i := 0) (K.pageTable 0+3) (by omega) (Ne.symm hd0)).trans
        ((sameFrame_identityTable K (t := 1) (by omega) _ (by omega)).trans
          (sameFrame_setEntry _ (n := K.directoryFrame) (i := 1) (K.pageTable 1+3) (by omega) (Ne.symm hd0)))
      rw [← entry_identityTable K ht hi (memset m K.pageDirectory 0 4096)]
      exact hs.entry hi
    · have hs := sameFrame_setEntry (identityTable K 1 (setEntry (identityTable K 0
        (memset m K.pageDirectory 0 4096)) K.pageDirectory 0 (K.pageTable 0+3)))
        (n := K.directoryFrame) (k := K.tablesFrame+1) (i := 1) (K.pageTable 1+3) (by omega) (Ne.symm hd1)
      rw [← entry_identityTable K ht hi]
      exact hs.entry hi

/-- Before any directory exists the invariant is the kernel's own tables. -/
theorem separated_nil {K : KernelLayout} {m : Mem} {p : Pmm} (hp : Sound p) (hm : IdentityMapped K m) :
    Separated K ⟨m,p⟩ [] :=
  ⟨hp,List.nodup_nil,by simp,fun _ _ _ h => absurd h.1 List.not_mem_nil,hm.directory,by simp⟩

/-! ## `paging_destroy_pd` -/

/-- A conditional free releases the frame of a present entry and no other. -/
theorem releases_entry (e : ℕ) (p : Pmm) :
    Releases p (if isPresent e then pmmFreeFrame p (pageBase e) else p) {f | isPresent e ∧ f = e/4096} := by
  cases he : isPresent e with
  | true =>
    have h := releases_freeFrame p (pageBase e)
    have hs : ({pageBase e/pageSize} : Set ℕ) = {f | true = true ∧ f = e/4096} := by
      ext f
      simp [pageBase_eq,pageSize]
    rw [hs] at h
    simpa using h
  | false =>
    have hs : ({f | false = true ∧ f = e/4096} : Set ℕ) = ∅ := by
      ext f
      simp
    rw [hs]
    simpa using Releases.refl p

theorem releases_freeTableFrames (m : Mem) (pt : ℕ) (p : Pmm) :
    Releases p (freeTableFrames m pt p)
      {f | ∃ j < 1024, isPresent (entry m pt j) ∧ f = entry m pt j/4096} := by
  have h := Releases.foldl (fun p j => releases_entry (entry m pt j) p) (List.range 1024) p
  simp only [List.mem_range] at h
  exact h

/-- The frames that `paging_destroy_pd` gives back: the directory's own, the tables of its
present PDEs from 2 on, and what the present entries of those tables name. -/
def Visits (m : Mem) (pd f : ℕ) : Prop :=
  f = pd/4096 ∨ ∃ i < 1024, 2 ≤ i ∧ isPresent (entry m pd i) = true ∧ (f = entry m pd i/4096 ∨
    ∃ j < 1024, isPresent (entry m (pageBase (entry m pd i)) j) = true ∧
      f = entry m (pageBase (entry m pd i)) j/4096)

instance (m : Mem) (pd f : ℕ) : Decidable (Visits m pd f) := inferInstanceAs (Decidable (_ ∨ _))

/-- One round of the outer loop. -/
theorem releases_table (m : Mem) (pd i : ℕ) (p : Pmm) :
    Releases p (if isPresent (entry m pd i) then
        pmmFreeFrame (freeTableFrames m (pageBase (entry m pd i)) p) (pageBase (entry m pd i)) else p)
      {f | isPresent (entry m pd i) = true ∧ (f = entry m pd i/4096 ∨
        ∃ j < 1024, isPresent (entry m (pageBase (entry m pd i)) j) = true ∧
          f = entry m (pageBase (entry m pd i)) j/4096)} := by
  cases he : isPresent (entry m pd i) with
  | true =>
    have h := (releases_freeTableFrames m (pageBase (entry m pd i)) p).trans
      (releases_freeFrame _ (pageBase (entry m pd i)))
    have hs : ({f | ∃ j < 1024, isPresent (entry m (pageBase (entry m pd i)) j) ∧
        f = entry m (pageBase (entry m pd i)) j/4096} ∪ {pageBase (entry m pd i)/pageSize} : Set ℕ) =
        {f | true = true ∧ (f = entry m pd i/4096 ∨
          ∃ j < 1024, isPresent (entry m (pageBase (entry m pd i)) j) = true ∧
            f = entry m (pageBase (entry m pd i)) j/4096)} := by
      have hdiv : pageBase (entry m pd i)/pageSize = entry m pd i/4096 := by
        rw [pageBase_eq,pageSize]
        omega
      ext f
      simp only [Set.mem_union,Set.mem_ofPred_eq,Set.mem_singleton_iff,hdiv,true_and]
      exact or_comm
    rw [hs] at h
    simpa using h
  | false =>
    have hs : ({f | false = true ∧ (f = entry m pd i/4096 ∨
        ∃ j < 1024, isPresent (entry m (pageBase (entry m pd i)) j) = true ∧
          f = entry m (pageBase (entry m pd i)) j/4096)} : Set ℕ) = ∅ := by
      ext f
      simp
    rw [hs]
    simpa using Releases.refl p

theorem releases_visits (pd : ℕ) (s : Machine) :
    Releases s.pmm (pagingDestroyPd pd s).pmm {f | Visits s.mem pd f} := by
  have h := (Releases.foldl (fun p i => releases_table s.mem pd i p) (List.range' 2 1022) s.pmm).trans
    (releases_freeFrame _ pd)
  have hs : ({f | ∃ i ∈ List.range' 2 1022, f ∈ {f | isPresent (entry s.mem pd i) = true ∧
      (f = entry s.mem pd i/4096 ∨ ∃ j < 1024, isPresent (entry s.mem (pageBase (entry s.mem pd i)) j) = true ∧
        f = entry s.mem (pageBase (entry s.mem pd i)) j/4096)}} ∪ {pd/pageSize} : Set ℕ) =
      {f | Visits s.mem pd f} := by
    ext f
    simp only [Set.mem_union,Set.mem_ofPred_eq,Set.mem_singleton_iff,List.mem_range'_1]
    constructor
    · rintro (⟨i,⟨hi,hi'⟩,hf⟩ | hf)
      · exact Or.inr ⟨i,by omega,hi,hf⟩
      · exact Or.inl hf
    · rintro (hf | ⟨i,hi,hi2,hf⟩)
      · exact Or.inr hf
      · exact Or.inl ⟨i,⟨hi2,by omega⟩,hf⟩
  rw [hs] at h
  exact h

theorem visits_iff {m : Mem} {d f : ℕ} : Visits m (4096*d) f ↔ ∃ r, Holds m d r f := by
  have hdir : 4096*d/4096 = d := Nat.mul_div_cancel_left d (by decide)
  simp only [Visits,pageBase_eq,hdir]
  constructor
  · rintro (hf | ⟨i,hi,hi2,hp,hf | ⟨j,hj,hpj,hf⟩⟩)
    · exact ⟨.dir,hf⟩
    · exact ⟨.table i,hi2,hi,hp,hf⟩
    · exact ⟨.page i j,_,⟨hi2,hi,hp,rfl⟩,hj,hpj,hf⟩
  · rintro ⟨r,hr⟩
    cases r with
    | dir => exact Or.inl hr
    | table i => exact Or.inr ⟨i,hr.2.1,hr.1,hr.2.2.1,Or.inl hr.2.2.2⟩
    | page i j =>
      obtain ⟨t,⟨h1,h2,h3,rfl⟩,hj,hp,hf⟩ := hr
      exact Or.inr ⟨i,h2,h1,h3,Or.inr ⟨j,hj,hp,hf⟩⟩

/-- Destroying a directory gives back exactly the frames it holds. -/
theorem releases_destroyPd (d : ℕ) (s : Machine) :
    Releases s.pmm (pagingDestroyPd (4096*d) s).pmm {f | ∃ r, Holds s.mem d r f} := by
  have h := releases_visits (4096*d) s
  have hs : {f | Visits s.mem (4096*d) f} = {f | ∃ r, Holds s.mem d r f} := by
    ext f
    exact visits_iff
  rw [hs] at h
  exact h

/-- Destroying one directory leaves the others' frames in use. -/
theorem separated_destroyPd {K : KernelLayout} {s : Machine} {live : List ℕ} (h : Separated K s live)
    {d : ℕ} (hd : d ∈ live) : Separated K (pagingDestroyPd (4096*d) s) (live.erase d) := by
  have hrel := releases_destroyPd d s
  have hsub : ∀ d' ∈ live.erase d, d' ∈ live ∧ d' ≠ d := fun d' hd' =>
    ⟨List.mem_of_mem_erase hd',fun he => List.Nodup.not_mem_erase h.nodup (he ▸ hd')⟩
  refine ⟨?_,h.nodup.erase d,fun d' hd' r f hf => ?_,?_,h.kernelPd,fun d' hd' => h.flagged d' (hsub d' hd').1⟩
  · exact (hrel.counters h.sound fun f ⟨r,hf⟩ => (h.owned d hd r f hf).1).1
  · obtain ⟨hl,hne⟩ := hsub d' hd'
    obtain ⟨h1,h2,h3⟩ := h.owned d' hl r f hf
    refine ⟨h1,h2,(hrel.bits f).mpr ⟨h3,?_⟩⟩
    rintro ⟨_,r',hf'⟩
    exact hne (h.unique hl hd hf hf').1
  · exact h.exclusive.mono fun k f hf => ⟨(hsub k.1 hf.1).1,hf.2⟩

/-! ## Runs -/

/-- The machine and the directories created and not yet destroyed, by frame. -/
structure System where
  mach : Machine
  live : List ℕ

/-- One call, on a live directory where it takes one. -/
inductive SpaceStep (K : KernelLayout) : System → System → Prop
  | create (S : System) : SpaceStep K S
      ⟨(pagingCreatePd K S.mach).2,
        if (pagingCreatePd K S.mach).1 = 0 then S.live else (pagingCreatePd K S.mach).1/4096 :: S.live⟩
  | alloc (S : System) (d virtBase n : ℕ) : d ∈ S.live → (∀ v ∈ pagesFrom virtBase n, 2 ≤ v/4194304) →
      SpaceStep K S ⟨(pagingAllocUserPages (4096*d) virtBase n S.mach).2,S.live⟩
  | destroy (S : System) (d : ℕ) : d ∈ S.live →
      SpaceStep K S ⟨pagingDestroyPd (4096*d) S.mach,S.live.erase d⟩

/-- States reached from boot: any memory contents, any E820 map. -/
inductive Reachable (K : KernelLayout) (mmap : BootMmap) : System → Prop
  | boot (m : Mem) : Reachable K mmap ⟨⟨pagingInit K m,pmmInit mmap⟩,[]⟩
  | step {S S' : System} : Reachable K mmap S → SpaceStep K S S' → Reachable K mmap S'

theorem pagesFrom_lt {virtBase n v : ℕ} (hv : v ∈ pagesFrom virtBase n) : v < 2^32 := by
  obtain ⟨i,_,rfl⟩ := List.mem_map.mp hv
  exact Nat.mod_lt _ (by decide)

theorem pagingAllocUserPages_snd (pd virtBase n : ℕ) (s : Machine) :
    (pagingAllocUserPages pd virtBase n s).2 = (allocUserPages pd (pagesFrom virtBase n) s).2 := by
  unfold pagingAllocUserPages
  split <;> simp_all

theorem spaceStep_separated {K : KernelLayout} {S S' : System} (hs : SpaceStep K S S')
    (h : Separated K S.mach S.live) : Separated K S'.mach S'.live := by
  cases hs with
  | create =>
    rcases h.createPd_cases with ⟨_,he⟩ | ⟨d,q,ht,he⟩
    · rw [he]
      exact h
    · have hpos : 4096*d ≠ 0 := ht.addr_ne_zero
      rw [he]
      dsimp only
      rw [if_neg hpos,Nat.mul_div_cancel_left d (by decide)]
      exact h.freshDir ht
  | alloc d virtBase n hd _ =>
    dsimp only
    rw [pagingAllocUserPages_snd]
    exact h.allocUserPages hd fun v hv => pagesFrom_lt hv
  | destroy d hd => exact separated_destroyPd h hd

theorem Reachable.separated {K : KernelLayout} {mmap : BootMmap} {S : System} (hr : Reachable K mmap S) :
    Separated K S.mach S.live := by
  induction hr with
  | boot m => exact separated_nil (pmmInit_sound mmap) (pagingInit_identityMapped K m)
  | step _ hs ih => exact spaceStep_separated hs ih

/-- In every run the frames that live directories hold (their own, their page
tables and their user frames) are pairwise distinct, in use, and above 1 MB. -/
theorem liveSpaces_disjoint (K : KernelLayout) (mmap : BootMmap) (S : System) (hr : Reachable K mmap S) :
    S.live.Nodup ∧
    (∀ d ∈ S.live, ∀ d' ∈ S.live, ∀ r r' f, Holds S.mach.mem d r f → Holds S.mach.mem d' r' f →
      d = d' ∧ r = r') ∧
    ∀ d ∈ S.live, ∀ r f, Holds S.mach.mem d r f →
      f < totalFrames ∧ pmmIsUsed S.mach.pmm f = true ∧ 0x100000 ≤ 4096*f := by
  have h := hr.separated
  refine ⟨h.nodup,fun d hd d' hd' r r' f hf hf' => h.unique hd hd' hf hf',fun d hd r f hf => ?_⟩
  obtain ⟨h1,h2,h3⟩ := h.owned d hd r f hf
  simp only [lowFrames] at h1
  exact ⟨h2,h3,by omega⟩

/-- A layout such as the linker script produces. -/
def sampleLayout : KernelLayout where
  directoryFrame := 16
  tablesFrame := 17
  directory_low := by decide
  tables_low := by decide
  directory_pos := by decide
  tables_pos := by decide
  disjoint := by decide

/-- Boot without an E820 map, then create one directory. -/
def bootedSystem : System := ⟨⟨pagingInit sampleLayout (fun _ => 0),pmmInit ⟨[],by decide⟩⟩,[]⟩
def createOn (K : KernelLayout) (S : System) : System :=
  ⟨(pagingCreatePd K S.mach).2,
    if (pagingCreatePd K S.mach).1 = 0 then S.live else (pagingCreatePd K S.mach).1/4096 :: S.live⟩

theorem Reachable.createOn {K : KernelLayout} {mmap : BootMmap} {S : System} (hr : Reachable K mmap S) :
    Reachable K mmap (createOn K S) := hr.step (.create S)

def oneDirectory : System := createOn sampleLayout bootedSystem
def firstDirectory : ℕ := oneDirectory.live.headD 0

theorem bootedSystem_separated : Separated sampleLayout bootedSystem.mach [] :=
  separated_nil (pmmInit_sound _) (pagingInit_identityMapped sampleLayout _)

theorem bootedSystem_freeCount : freeCount bootedSystem.mach.pmm = 7936 := by
  unfold bootedSystem
  rw [freeCount_pmmInit_nil _ rfl]
  decide

theorem createOn_spec {K : KernelLayout} {S : System} (h : Separated K S.mach S.live)
    (hfree : freeCount S.mach.pmm ≠ 0) :
    ∃ d q, Takes S.mach.pmm q d ∧ createOn K S = ⟨⟨freshDir K S.mach.mem d,q⟩,d :: S.live⟩ := by
  rcases h.createPd_cases with ⟨h0,_⟩ | ⟨d,q,ht,he⟩
  · exact absurd h0 hfree
  · have hpos : 4096*d ≠ 0 := ht.addr_ne_zero
    refine ⟨d,q,ht,?_⟩
    rw [createOn,he]
    dsimp only
    rw [if_neg hpos,Nat.mul_div_cancel_left d (by decide)]

/-- The directory of `oneDirectory` is a fresh one. -/
theorem oneDirectory_spec : ∃ q, Takes bootedSystem.mach.pmm q firstDirectory ∧
    oneDirectory = ⟨⟨freshDir sampleLayout bootedSystem.mach.mem firstDirectory,q⟩,[firstDirectory]⟩ := by
  have hfree : freeCount bootedSystem.mach.pmm ≠ 0 := by
    rw [bootedSystem_freeCount]
    decide
  obtain ⟨d,q,ht,he⟩ := createOn_spec bootedSystem_separated hfree
  have hd : firstDirectory = d := by
    rw [firstDirectory,oneDirectory,he,List.headD_cons]
  rw [hd,oneDirectory,he]
  exact ⟨q,ht,rfl⟩

theorem oneDirectory_separated : Separated sampleLayout oneDirectory.mach [firstDirectory] := by
  obtain ⟨q,ht,he⟩ := oneDirectory_spec
  rw [he]
  exact bootedSystem_separated.freshDir ht

theorem oneDirectory_identity : IdentityMapped sampleLayout oneDirectory.mach.mem := by
  obtain ⟨q,ht,he⟩ := oneDirectory_spec
  have hboot : IdentityMapped sampleLayout bootedSystem.mach.mem := pagingInit_identityMapped sampleLayout _
  have hlow := ht.low
  have h1 := sampleLayout.directory_low
  have h2 := sampleLayout.tables_low
  rw [he]
  constructor
  · intro t htlt
    rw [← hboot.directory t htlt]
    exact (sameFrame_freshDir sampleLayout _ (by omega)).entry (by omega)
  · intro t htlt i hi
    rw [← hboot.tables t htlt i hi]
    exact (sameFrame_freshDir sampleLayout _ (by omega)).entry hi

/-- One page in a region that has no table yet. -/
theorem allocFirst_spec {K : KernelLayout} {s : Machine} {live : List ℕ} (h : Separated K s live) {d v : ℕ} (hd : d ∈ live)
    (hv : v < 2^32) (habs : isPresent (entry s.mem (4096*d) (v/4194304)) = false) (hfree : 2 ≤ freeCount s.pmm) :
    ∃ s', (pagingAllocUserPages (4096*d) v 1 s).2 = s' ∧ freeCount s'.pmm + 2 = freeCount s.pmm ∧
      (∃ f, Holds s'.mem d (.page (v/4194304) (v/4096 % 1024)) f) ∧
      ∀ d' ∈ live, d' ≠ d → ∀ r f, Holds s.mem d' r f → Holds s'.mem d' r f := by
  have hpages : pagesFrom v 1 = [v] := by
    unfold pagesFrom
    rw [List.range_one,List.map_singleton,Nat.zero_mul,Nat.add_zero,Nat.mod_eq_of_lt hv]
  have hready {s₁ : Machine} (hr : TableReady d (v/4194304) s s₁) : 2 ≤ v/4194304 ∧
      ∃ t q, Takes s.pmm q t ∧ s₁ = ⟨linkTable s.mem d (v/4194304) t,q⟩ := by
    rcases hr with ⟨hp,_⟩ | ⟨_,hi,ht⟩
    · rw [habs] at hp
      cases hp
    · exact ⟨hi,ht⟩
  rw [pagingAllocUserPages_snd,hpages]
  rcases h.allocUserPage_cases hd hv with ⟨_,h0,_⟩ | ⟨s₁,hr,h0,_⟩ | ⟨s',hm,he⟩
  · omega
  · obtain ⟨_,t,q,ht,rfl⟩ := hready hr
    have hcount := ht.count
    dsimp only at h0
    omega
  · obtain ⟨s₁,g,q,hr,hg,rfl⟩ := hm
    obtain ⟨h₁,hp⟩ := h.tableReady hd (by omega) hr
    obtain ⟨hi,t,q',ht,rfl⟩ := hready hr
    have hu : Holds (linkTable s.mem d (v/4194304) t) d (.table (v/4194304))
        (entry (linkTable s.mem d (v/4194304) t) (4096*d) (v/4194304)/4096) := ⟨hi,by omega,hp,rfl⟩
    have hlink (d' : ℕ) (hd' : d' ∈ live) := h₁.holds_linkPage hd hu (Nat.mod_lt (v/4096) (by decide)) hg hd'
    have hcount := ht.count
    have hcount' := hg.count
    refine ⟨_,rfl,?_,⟨g,?_⟩,fun d' hd' hne r f hf => ?_⟩
    all_goals rw [allocUserPages,he]
    · dsimp only [allocUserPages] at hcount' ⊢
      omega
    · exact (hlink d hd _ _).mpr (by rw [if_pos ⟨rfl,rfl⟩])
    · refine (hlink d' hd' r f).mpr ?_
      rw [if_neg fun hh => hne hh.1]
      exact (h.holds_linkTable hd hi (by omega) habs ht hd' r f).mpr (Or.inl hf)

/-- Two directories that use the same virtual page. -/
theorem liveSpaces_disjoint_twoDirectories : ∃ (mmap : BootMmap) (S : System) (d d' f f' : ℕ),
    Reachable sampleLayout mmap S ∧ S.live = [d',d] ∧ Holds S.mach.mem d (.page 4 0) f ∧
      Holds S.mach.mem d' (.page 4 0) f' ∧ d ≠ d' ∧ f ≠ f' := by
  have hboot : Reachable sampleLayout ⟨[],by decide⟩ oneDirectory := .step (.boot fun _ => 0) (.create bootedSystem)
  obtain ⟨q,ht,he⟩ := oneDirectory_spec
  have hlive : oneDirectory.live = [firstDirectory] := by rw [he]
  have hfirst : firstDirectory ∈ oneDirectory.live := hlive ▸ List.mem_singleton_self _
  have hcount := ht.count
  rw [bootedSystem_freeCount] at hcount
  -- a page of the first directory
  obtain ⟨s₁,hs₁,hcount₁,⟨f,hf⟩,-⟩ := allocFirst_spec (v := 0x1000000) hboot.separated hfirst (by decide)
    (by
      rw [he]
      exact congrArg isPresent (entry_freshDir_user _ _ (i := 4) (by decide) (by decide)))
    (by
      rw [he]
      dsimp only
      omega)
  have hr₁ := hboot.step (.alloc oneDirectory firstDirectory 0x1000000 1 hfirst (by decide))
  rw [hs₁,hlive] at hr₁
  have hfree₁ : freeCount s₁.pmm = 7933 := by
    rw [he] at hcount₁
    dsimp only at hcount₁
    omega
  -- a second directory and a page of it
  obtain ⟨d,q',ht',he'⟩ := createOn_spec hr₁.separated (by
    dsimp only
    omega)
  have hr₂ := hr₁.createOn
  rw [he'] at hr₂
  have hne : firstDirectory ≠ d := ht'.ne (hr₁.separated.dir_used (List.mem_singleton_self firstDirectory))
  have hkept := ((hr₁.separated.untouched_freshDir ht' (List.mem_singleton_self firstDirectory)).holds (.page 4 0) f).mpr hf
  have hcount' := ht'.count
  obtain ⟨s₂,hs₂,-,⟨f',hf'⟩,hothers⟩ := allocFirst_spec (v := 0x1000000) hr₂.separated List.mem_cons_self (by decide)
    (congrArg isPresent (entry_freshDir_user _ _ (i := 4) (by decide) (by decide)))
    (by
      dsimp only at hcount' ⊢
      omega)
  have hr₃ := hr₂.step (.alloc _ d 0x1000000 1 List.mem_cons_self (by decide))
  rw [hs₂] at hr₃
  have hmem : firstDirectory ∈ [d,firstDirectory] := List.mem_cons_of_mem d (List.mem_singleton_self firstDirectory)
  have hf₂ := hothers firstDirectory hmem hne _ _ hkept
  obtain ⟨-,hdisjoint,-⟩ := liveSpaces_disjoint sampleLayout _ _ hr₃
  refine ⟨_,_,firstDirectory,d,f,f',hr₃,rfl,hf₂,hf',hne,?_⟩
  rintro rfl
  exact hne (hdisjoint _ hmem _ List.mem_cons_self _ _ _ hf₂ hf').1

end VesperOS.SpaceLifecycle
