import VesperOS.Loader.TwinLoads
import VesperOS.Syscall.UserPointers

/-! # What a new process finds in its memory

`elf_load_user` clears every page of a segment before it copies into it;
`paging_alloc_user_pages` clears the tables and not the pages, so the four pages of the
stack keep what their frames held. Two machines that differ in free frames only show a
new process the same bytes exactly when they agree on those four frames, which are the
last ones that the load takes.
-/
namespace VesperOS.FreshSpaces
open ByteMemory FrameAllocator Paging AddressSpaces AllocationBudget Translation ElfImage LoadPlan SpaceLifecycle
open ProcessTable Exec SyscallHandler UserPointers TwinLoads

/-- The stack of a loaded image; `none` when the frames run out. -/
def mapStack (pd : ℕ) (s : Machine) : Option (ℕ × Machine) :=
  match pagingAllocUserPages pd stackBase userStackPages s with
  | (0,mach) => some (pd,mach)
  | _ => none

/-- The image and its stack in a new directory; `none` also when a copy has left its frame. -/
def loadInto (img : Image) (pd : ℕ) (s : Machine) : Option (ℕ × Machine) :=
  match elfLoadUser img pd s with
  | (none,_) => none
  | (some entry,a) => if entry = 0 then none else mapStack pd a.mach

/-- The loading sequence of `cmd_exec`: the directory and the machine. -/
def loadSpace (K : KernelLayout) (img : Image) (s : Machine) : Option (ℕ × Machine) :=
  let (pd,mach) := pagingCreatePd K s
  if pd = 0 then none else loadInto img pd mach

/-- Every process that `cmd_exec` spawns has an address space made so. -/
theorem cmdExec_loadSpace {K : KernelLayout} {img : Image} {k k' : Kernel} {i : Slot}
    (h : cmdExec K (some img) k = .spawned i k') :
    loadSpace K img k.mach = some ((k'.table i).pdPhys,k'.mach) := by
  unfold cmdExec at h
  unfold loadSpace loadInto mapStack
  generalize pagingCreatePd K k.mach = r at *
  obtain ⟨pd,mach⟩ := r
  dsimp only at h ⊢
  by_cases hpd : pd = 0
  · rw [if_pos hpd] at h
    cases h
  · rw [if_neg hpd] at h ⊢
    generalize elfLoadUser img pd mach = r at *
    obtain ⟨result,a⟩ := r
    cases result with
    | none => cases h
    | some entry =>
      dsimp only at h ⊢
      by_cases hz : entry = 0
      · rw [if_pos hz] at h
        cases h
      · rw [if_neg hz] at h ⊢
        unfold pagingAllocUserPages at *
        generalize allocUserPages pd (pagesFrom stackBase userStackPages) a.mach = r at *
        obtain ⟨ok,mach'⟩ := r
        cases ok with
        | false => cases h
        | true =>
          simp only [processCreateUser,createProc] at h
          cases hslot : allocSlot { k with mach := mach' } with
          | none =>
            rw [hslot] at h
            cases h
          | some j =>
            rw [hslot] at h
            cases h
            simp [Kernel.setProc]

/-- From PDE 2 on user mode can access the same addresses and reads the same bytes there. -/
structure SameView (m : Mem) (pd : ℕ) (m' : Mem) (pd' : ℕ) : Prop where
  mapped : ∀ a, 0x800000 ≤ a → (UserMapped m pd a ↔ UserMapped m' pd' a)
  bytes : ∀ a, 0x800000 ≤ a → UserMapped m pd a →
    (SyscallHandler.translate pd m a).map m = (SyscallHandler.translate pd' m' a).map m'

/-- Both machines make an address space or none does, and a process sees no difference. -/
structure SameSpaces (K : KernelLayout) (img : Image) (s t : Machine) : Prop where
  made : (loadSpace K img s).isSome = (loadSpace K img t).isSome
  view : ∀ x y, loadSpace K img s = some x → loadSpace K img t = some y → SameView x.2.mem x.1 y.2.mem y.1

/-- The frames that are left of `free` ones when the load succeeds. -/
def framesLeft (img : Image) (free : ℕ) : Option ℕ :=
  match (plan img ⟨free-1,{0,1}⟩).ending with
  | .loaded b =>
    if free = 0 ∨ img.eEntry = 0 then none else ((b.run (pagesFrom stackBase userStackPages)).2).map Budget.avail
  | _ => none

/-! ## When the load succeeds -/

theorem mapStack_eq (pd : ℕ) (s : Machine) : mapStack pd s =
    if (allocUserPages pd (pagesFrom stackBase userStackPages) s).1 then
      some (pd,(allocUserPages pd (pagesFrom stackBase userStackPages) s).2) else none := by
  unfold mapStack pagingAllocUserPages
  generalize allocUserPages pd (pagesFrom stackBase userStackPages) s = r
  obtain ⟨ok,s'⟩ := r
  cases ok <;> rfl

theorem loadInto_none {img : Image} {pd : ℕ} {s : Machine} (h : (elfLoadUser img pd s).1 = none) :
    loadInto img pd s = none := by
  unfold loadInto
  generalize elfLoadUser img pd s = r at *
  obtain ⟨e,a⟩ := r
  cases h
  rfl

theorem loadInto_some {img : Image} {pd e : ℕ} {s : Machine} (h : (elfLoadUser img pd s).1 = some e) :
    loadInto img pd s = if e = 0 then none else mapStack pd (elfLoadUser img pd s).2.mach := by
  unfold loadInto
  generalize elfLoadUser img pd s = r at *
  obtain ⟨e',a⟩ := r
  cases h
  rfl

section Load
variable {K : KernelLayout} {s t : Machine} {live : List ℕ} (h : Separated K s live)
include h

theorem loadSpace_cases (img : Image) : (framesLeft img (freeCount s.pmm) = none ∧ loadSpace K img s = none) ∨
    ∃ pd s', loadSpace K img s = some (pd,s') ∧ framesLeft img (freeCount s.pmm) = some (freeCount s'.pmm) := by
  rcases h.createPd_cases with ⟨h0,he⟩ | ⟨d,q,ht,he⟩
  · left
    refine ⟨?_,?_⟩
    · unfold framesLeft
      split
      · rw [if_pos (Or.inl h0)]
      · rfl
    · unfold loadSpace
      rw [he]
      rfl
  · have hpos := ht.addr_ne_zero
    have hfree : freeCount s.pmm ≠ 0 := by
      have := ht.count
      omega
    have h₁ := h.freshDir ht
    have hd : d ∈ d :: live := List.mem_cons_self
    obtain ⟨hres,hrun,hbud,-⟩ := elfLoadUser_plan h₁ hd img
    rw [budget_freshDir K _ ht] at hres hrun hbud
    have hspace : loadSpace K img s = loadInto img (4096*d) ⟨freshDir K s.mem d,q⟩ := by
      unfold loadSpace
      rw [he]
      dsimp only
      rw [if_neg hpos]
    rw [hspace]
    unfold framesLeft
    generalize plan img ⟨freeCount s.pmm-1,{0,1}⟩ = p at *
    obtain ⟨visited,copied,pages,ending⟩ := p
    cases ending with
    | overrun => exact Or.inl ⟨rfl,loadInto_none hres⟩
    | refused =>
      rw [loadInto_some hres,if_pos rfl]
      exact Or.inl ⟨rfl,rfl⟩
    | outOfMemory =>
      rw [loadInto_some hres,if_pos rfl]
      exact Or.inl ⟨rfl,rfl⟩
    | loaded b =>
      rw [loadInto_some hres]
      dsimp only
      by_cases hz : img.eEntry = 0
      · rw [if_pos hz,if_pos (Or.inr hz)]
        exact Or.inl ⟨rfl,rfl⟩
      · rw [if_neg hz,if_neg (by simp [hfree,hz]),mapStack_eq]
        have hsep := hrun.separated h₁ hd
        rcases allocUserPages_run hsep hd stackPages_lt with ⟨s',-,ha,hb⟩ | ⟨ms,s₁,s₂,-,-,ha,hb,-⟩
        · right
          rw [hbud b rfl] at hb
          rw [ha,hb]
          exact ⟨_,s',rfl,congrArg some (budget_avail s' d)⟩
        · left
          rw [hbud b rfl] at hb
          rw [ha,hb]
          exact ⟨rfl,rfl⟩

/-! ## Two loads -/

/-- What two loads end in: the stack got the last frames taken, and they are all that may differ. -/
structure TwinSpaces (K : KernelLayout) (live : List ℕ) (s₀ t₀ : Machine) (n d : ℕ) (s t : Machine) : Prop where
  dir : d ∈ live
  separated : Separated K s live
  twin : Twin live s₀ t₀ { f | ∃ k < userStackPages, f = nthFrame s₀.pmm (n+k) } (n+userStackPages) s t
  maps : ∀ k < userStackPages, Maps s.mem d (stackBase+4096*k) (nthFrame s₀.pmm (n+k))

omit h in
theorem mapStack_twin {d n : ℕ} {s₀ t₀ : Machine} (hd : d ∈ live) (hs : Separated K s live)
    (htw : Twin live s₀ t₀ ∅ n s t) {x : ℕ × Machine} (he : mapStack (4096*d) s = some x) :
    ∃ n₁ t', x.1 = 4096*d ∧ mapStack (4096*d) t = some (4096*d,t') ∧ TwinSpaces K live s₀ t₀ n₁ d x.2 t' := by
  rw [mapStack_eq] at he
  rcases halloc : allocUserPages (4096*d) (pagesFrom stackBase userStackPages) s with ⟨ok,s'⟩
  rw [halloc] at he
  cases ok with
  | false => cases he
  | true =>
    cases he
    have hpw : (pagesFrom stackBase userStackPages).Pairwise (fun v w => v/4096 ≠ w/4096) := by decide
    have hregion : ∀ v ∈ pagesFrom stackBase userStackPages, v/4194304 = 4 := by decide
    have hlen : (pagesFrom stackBase userStackPages).length = userStackPages := by decide
    obtain ⟨n',js,t',hp⟩ := htw.pages hd stackPages_lt hpw hs halloc
    obtain ⟨n₁,-,hjs,hn'⟩ := hp.consecutive 4 hregion
    rw [hlen] at hjs hn'
    subst hjs hn'
    refine ⟨n₁,t',rfl,?_,hd,hp.separated,?_,?_⟩
    · rw [mapStack_eq,hp.other]
      rfl
    · have hset : ∅ ∪ { f | ∃ j ∈ List.range' n₁ userStackPages, f = nthFrame s₀.pmm j } =
          { f | ∃ k < userStackPages, f = nthFrame s₀.pmm (n₁+k) } := by
        ext f
        simp only [Set.empty_union,Set.mem_ofPred_eq,List.mem_range'_1]
        constructor
        · rintro ⟨j,⟨h1,h2⟩,rfl⟩
          exact ⟨j-n₁,by omega,by rw [Nat.add_sub_cancel' h1]⟩
        · rintro ⟨k,hk,rfl⟩
          exact ⟨n₁+k,⟨by omega,by omega⟩,rfl⟩
      rw [← hset]
      exact hp.twin
    · intro k hk
      have hm := hp.maps.get (i := k) (by rw [hlen]; exact hk) (by rw [List.length_range']; exact hk)
      simp only [List.get_eq_getElem,List.getElem_range',Nat.one_mul,pagesFrom,List.getElem_map,List.getElem_range] at hm
      have hv : (stackBase+k*4096) % 2^32 = stackBase+4096*k := by
        have hbase : stackBase = 0x101C000 := by decide
        have hpages : userStackPages = 4 := by decide
        omega
      rw [hv] at hm
      exact hm

theorem loadSpace_twin (hst : DifferInFree s t) {img : Image} {x : ℕ × Machine} (he : loadSpace K img s = some x) :
    ∃ d n t', x.1 = 4096*d ∧ loadSpace K img t = some (4096*d,t') ∧ TwinSpaces K (d :: live) s t n d x.2 t' := by
  unfold loadSpace at he ⊢
  rcases hcreate : pagingCreatePd K s with ⟨pd,s₁⟩
  rw [hcreate] at he
  dsimp only at he
  by_cases hpd : pd = 0
  · rw [if_pos hpd] at he
    cases he
  · rw [if_neg hpd] at he
    obtain ⟨d,t₁,rfl,hcreate',htw,hs₁⟩ := Twin.freshDir hst h hcreate hpd
    have hd : d ∈ d :: live := List.mem_cons_self
    rcases hload : elfLoadUser img (4096*d) s₁ with ⟨entry,a⟩
    cases entry with
    | none =>
      rw [loadInto_none (by rw [hload])] at he
      cases he
    | some e =>
      rw [loadInto_some (by rw [hload])] at he
      by_cases hz : e = 0
      · rw [if_pos hz] at he
        cases he
      · rw [if_neg hz,hload] at he
        obtain ⟨n',b,hload',htw',hs'⟩ := htw.load hd hs₁ hload hz
        obtain ⟨n₁,t',hx,hmap,hts⟩ := mapStack_twin hd hs' htw' he
        refine ⟨d,n₁,t',hx,?_,hts⟩
        rw [hcreate']
        dsimp only
        rw [if_neg hpd,loadInto_some (by rw [hload']),if_neg hz,hload']
        exact hmap

end Load

/-! ## What a process sees -/

theorem translate_of_maps {m : Mem} {d v g a : ℕ} (hm : Maps m d v g) (ha : a/4096 = v/4096) :
    SyscallHandler.translate (4096*d) m a = some (4096*g+a % 4096) := by
  have hi : a/4194304 = v/4194304 := by omega
  have hpte := hm.pte
  unfold pteOf tableFrame at hpte
  unfold SyscallHandler.translate
  dsimp only
  rw [hi,ha,pageBase_eq,hpte,if_pos ⟨hm.pde,isPresent_user g⟩,pageBase_eq,div_user]

section View
variable {K : KernelLayout} {live : List ℕ} {s₀ t₀ s t : Machine} {n d : ℕ} (h : TwinSpaces K live s₀ t₀ n d s t)
include h

/-- Both directories have the same PDEs, and the same PTEs under those that are present. -/
theorem TwinSpaces.entries {a : ℕ} (ha : a < 2^32) :
    entry t.mem (4096*d) (a/4194304) = entry s.mem (4096*d) (a/4194304) ∧
    (isPresent (entry s.mem (4096*d) (a/4194304)) = true →
      entry t.mem (pageBase (entry s.mem (4096*d) (a/4194304))) (a/4096 % 1024) =
        entry s.mem (pageBase (entry s.mem (4096*d) (a/4194304))) (a/4096 % 1024)) := by
  have hi : a/4194304 < 1024 := by omega
  refine ⟨(h.twin.dir h.separated h.dir).entry hi,?_⟩
  intro hp
  rw [pageBase_eq]
  exact (h.twin.table h.separated h.dir hi hp).entry (by omega)

theorem TwinSpaces.mapped (a : ℕ) : UserMapped s.mem (4096*d) a ↔ UserMapped t.mem (4096*d) a := by
  constructor
  · rintro ⟨ha,h1,h2,h3,h4⟩
    obtain ⟨hpde,hpte⟩ := h.entries ha
    have hsame := hpte h1
    refine ⟨ha,?_,?_,?_,?_⟩
    · rw [hpde]
      exact h1
    · rw [hpde]
      exact h2
    · rw [hpde,hsame]
      exact h3
    · rw [hpde,hsame]
      exact h4
  · rintro ⟨ha,h1,h2,h3,h4⟩
    obtain ⟨hpde,hpte⟩ := h.entries ha
    rw [hpde] at h1 h2 h3 h4
    have hsame := hpte h1
    rw [hsame] at h3 h4
    exact ⟨ha,h1,h2,h3,h4⟩

/-- Both translate a user address to the same place. -/
theorem TwinSpaces.translates {a : ℕ} (ha : UserMapped s.mem (4096*d) a) :
    ∃ f, pmmIsUsed s.pmm f = true ∧ SyscallHandler.translate (4096*d) s.mem a = some (4096*f+a % 4096) ∧
      SyscallHandler.translate (4096*d) t.mem a = some (4096*f+a % 4096) := by
  obtain ⟨u,f,hu,hf,he,hef⟩ := userMapped_holds h.separated h.dir ha
  obtain ⟨hpde,hpte⟩ := h.entries ha.word
  refine ⟨f,h.separated.used h.dir hf,?_,?_⟩
  · unfold SyscallHandler.translate
    dsimp only
    rw [if_pos ⟨ha.pde,ha.pte⟩,pageBase_eq,pageBase_eq,← he,← hef]
  · unfold SyscallHandler.translate
    dsimp only
    rw [hpde,hpte ha.pde,if_pos ⟨ha.pde,ha.pte⟩,pageBase_eq,pageBase_eq,← he,← hef]

/-- Where the stack frames agree, so does every frame in use. -/
theorem TwinSpaces.sameView (hstack : ∀ k < userStackPages, SameFrame s₀.mem t₀.mem (nthFrame s₀.pmm (n+k))) :
    SameView s.mem (4096*d) t.mem (4096*d) := by
  refine ⟨fun a _ => h.mapped a,?_⟩
  intro a _ ha
  obtain ⟨f,hu,h1,h2⟩ := h.translates ha
  have hsame : SameFrame s.mem t.mem f := by
    by_cases hf : ∃ k < userStackPages, f = nthFrame s₀.pmm (n+k)
    · obtain ⟨h3,h4⟩ := h.twin.kept f (Or.inr hf)
      obtain ⟨k,hk,rfl⟩ := hf
      intro x hx
      exact (h4 x hx).trans ((hstack k hk x hx).trans (h3 x hx).symm)
    · exact h.twin.sameFrame hu hf
  rw [h1,h2,Option.map_some,Option.map_some,hsame _ (by omega)]

/-- The stack shows what its frames held. -/
theorem TwinSpaces.stack (hview : SameView s.mem (4096*d) t.mem (4096*d)) {k : ℕ} (hk : k < userStackPages) :
    SameFrame s₀.mem t₀.mem (nthFrame s₀.pmm (n+k)) := by
  intro x hx
  have hbase : stackBase = 0x101C000 := by decide
  have hpages : userStackPages = 4 := by decide
  have hm := h.maps k hk
  have hmapped : UserMapped s.mem (4096*d) (stackBase+4096*k+x % 4096) :=
    userMapped_of_maps h.separated h.dir hm (by omega) (by omega) (by omega)
  have hm' := h.twin.maps h.separated h.dir (by omega) hm
  have hbytes := hview.bytes _ (by omega) hmapped
  rw [translate_of_maps hm (by omega),translate_of_maps hm' (by omega),Option.map_some,Option.map_some,
    Option.some_inj] at hbytes
  have hx' : 4096*nthFrame s₀.pmm (n+k)+(stackBase+4096*k+x % 4096) % 4096 = x := by omega
  rw [hx'] at hbytes
  obtain ⟨h3,h4⟩ := h.twin.kept _ (Or.inr ⟨k,hk,rfl⟩)
  rw [← h3 x hx,← h4 x hx]
  exact hbytes.symm

end View

/-- The frames of the stack are the last four that the load takes. -/
theorem TwinSpaces.position {K : KernelLayout} {live : List ℕ} {s₀ t₀ s t : Machine} {n d : ℕ}
    (h : TwinSpaces K live s₀ t₀ n d s t) : freeCount s₀.pmm-freeCount s.pmm-userStackPages = n := by
  have hcount := h.twin.count
  omega

theorem stack_of_sameSpaces {K : KernelLayout} {s t : Machine} {live : List ℕ} (h : Separated K s live)
    (hst : DifferInFree s t) {img : Image} (hsame : SameSpaces K img s t) {left : ℕ}
    (hleft : framesLeft img (freeCount s.pmm) = some left) {k : ℕ} (hk : k < userStackPages) :
    SameFrame s.mem t.mem (nthFrame s.pmm (freeCount s.pmm-left-userStackPages+k)) := by
  rcases loadSpace_cases h img with ⟨hnone,-⟩ | ⟨pd,s',hs,hfree⟩
  · rw [hnone] at hleft
    cases hleft
  · obtain ⟨d,n,t',hpd,ht,htwin⟩ := loadSpace_twin h hst hs
    rw [hfree,Option.some_inj] at hleft
    dsimp only at hpd htwin
    subst hpd
    rw [← hleft,htwin.position]
    exact htwin.stack (hsame.view _ _ hs ht) hk

/-- A new process sees the same in both machines exactly when the load fails or they agree on the frames that its
stack is going to get. -/
theorem fresh_spaces_iff {K : KernelLayout} {s t : Machine} {live : List ℕ} (h : Separated K s live)
    (hst : DifferInFree s t) (img : Image) : SameSpaces K img s t ↔
      ∀ left, framesLeft img (freeCount s.pmm) = some left → ∀ k < userStackPages,
        SameFrame s.mem t.mem (nthFrame s.pmm (freeCount s.pmm-left-userStackPages+k)) := by
  constructor
  · intro hsame left hleft k hk
    exact stack_of_sameSpaces h hst hsame hleft hk
  · intro hstack
    rcases loadSpace_cases h img with ⟨hnone,hs⟩ | ⟨pd,s',hs,hfree⟩
    · have hst' : Separated K t live := (Twin.start hst).separated h
      rcases loadSpace_cases hst' img with ⟨-,ht⟩ | ⟨_,_,-,hleft⟩
      · refine ⟨by rw [hs,ht],?_⟩
        intro x y hx
        rw [hs] at hx
        cases hx
      · rw [hst.pmm,hnone] at hleft
        cases hleft
    · obtain ⟨d,n,t',hpd,ht,htwin⟩ := loadSpace_twin h hst hs
      dsimp only at hpd htwin
      subst hpd
      refine ⟨by rw [hs,ht]; rfl,?_⟩
      intro x y hx hy
      cases hs.symm.trans hx
      cases ht.symm.trans hy
      apply htwin.sameView
      intro k hk
      have hframe := hstack _ hfree k hk
      rw [htwin.position] at hframe
      exact hframe

/-! ## A machine just booted -/

/-- One byte of a free frame is not what it was. -/
def changed (x : ℕ) : Machine :=
  ⟨Function.update bootedSystem.mach.mem x (bootedSystem.mach.mem x+1),bootedSystem.mach.pmm⟩

theorem bootedSystem_freeSet : freeSet bootedSystem.mach.pmm = Finset.Ico lowFrames totalFrames := by
  unfold bootedSystem
  rw [freeSet_pmmInit_nil _ rfl]

theorem changed_self (x : ℕ) : (changed x).mem x = bootedSystem.mach.mem x+1 := by
  unfold changed
  exact Function.update_self _ _ _

theorem sameFrame_changed {x f : ℕ} (hf : f ≠ x/4096) : SameFrame bootedSystem.mach.mem (changed x).mem f := by
  intro y hy
  apply Function.update_of_ne
  rintro rfl
  exact hf hy.symm

theorem differ_changed {x : ℕ} (h1 : 256 ≤ x/4096) (h2 : x/4096 < 8192) : DifferInFree bootedSystem.mach (changed x) := by
  refine ⟨rfl,?_⟩
  intro f hf
  apply sameFrame_changed
  rintro rfl
  apply hf
  rw [bootedSystem_freeSet,Finset.mem_Ico]
  exact ⟨h1,h2⟩

/-- `userImage` takes frames 256 to 262, the last four for the stack. -/
theorem framesLeft_userImage : framesLeft userImage 7936 = some 7929 := by
  decide +kernel

theorem stackFrame_userImage {k : ℕ} (hk : k < userStackPages) : nthFrame bootedSystem.mach.pmm (3+k) = 259+k := by
  have hpages : userStackPages = 4 := by decide
  have hlow : lowFrames = 256 := rfl
  have htotal : totalFrames = 8192 := rfl
  rw [nthFrame_Ico bootedSystem_freeSet (by omega)]
  omega

theorem fresh_spaces_lastFrame : SameSpaces sampleLayout userImage bootedSystem.mach (changed 0x1FFF000) := by
  apply (fresh_spaces_iff bootedSystem_separated (differ_changed (by decide) (by decide)) userImage).mpr
  intro left hleft k hk
  rw [bootedSystem_freeCount,framesLeft_userImage,Option.some_inj] at hleft
  subst hleft
  rw [bootedSystem_freeCount]
  apply sameFrame_changed
  have hpages : userStackPages = 4 := by decide
  rw [hpages,stackFrame_userImage hk]
  omega

/-- A byte left in frame 259 shows up in the stack of the next process. -/
theorem stack_not_cleared : DifferInFree bootedSystem.mach (changed 0x103000) ∧
    ¬ SameSpaces sampleLayout userImage bootedSystem.mach (changed 0x103000) := by
  have hdiffer : DifferInFree bootedSystem.mach (changed 0x103000) := differ_changed (by decide) (by decide)
  refine ⟨hdiffer,?_⟩
  intro hsame
  have hleft : framesLeft userImage (freeCount bootedSystem.mach.pmm) = some 7929 := by
    rw [bootedSystem_freeCount]
    exact framesLeft_userImage
  have hframe := stack_of_sameSpaces bootedSystem_separated hdiffer hsame hleft (k := 0) (by decide)
  have hpages : userStackPages = 4 := by decide
  rw [bootedSystem_freeCount,hpages,stackFrame_userImage (by decide)] at hframe
  have hbyte := hframe 0x103000 (by decide)
  rw [changed_self] at hbyte
  exact absurd hbyte (by simp)

end VesperOS.FreshSpaces
