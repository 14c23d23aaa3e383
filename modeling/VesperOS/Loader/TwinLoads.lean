import VesperOS.Loader.ImageContents

/-! # Two loads side by side

Two machines with one allocator state whose memories differ in free frames only make
the same requests and get the same frames. Directories and tables are cleared before
they are read, and a page of a segment is overwritten before the next segment starts;
what is left of the difference lies in the free frames and in pages that were mapped
and not filled.
-/
namespace VesperOS.TwinLoads
open ByteMemory FrameAllocator Paging AddressSpaces AllocationBudget Translation ElfImage PageFill LoadPlan
open ImageContents

/-- The allocator after `n` calls of `pmm_alloc_frame`. -/
def drawn (p : Pmm) : ℕ → Pmm
  | 0 => p
  | n+1 => (pmmAllocFrame (drawn p n)).2

/-- The frame that call `n` hands out, counted from 0. -/
def nthFrame (p : Pmm) (n : ℕ) : ℕ := (pmmAllocFrame (drawn p n)).1/4096

/-- The scan starts at frame 0, so where all frames from `m` on are free they are handed out in order. -/
theorem allocFrame_Ico {p : Pmm} {m : ℕ} (h : freeSet p = Finset.Ico m totalFrames) (hm : m < totalFrames) :
    pmmAllocFrame p = (m*pageSize,takeFrame p m) := by
  have hbit : ∀ f < totalFrames, pmmIsUsed p f = decide (f < m) := by
    intro f hf
    have hmem : f ∈ freeSet p ↔ m ≤ f ∧ f < totalFrames := by rw [h,Finset.mem_Ico]
    rw [mem_freeSet] at hmem
    cases hu : pmmIsUsed p f with
    | false =>
      have := (hmem.mp ⟨hf,hu⟩).1
      rw [eq_comm,decide_eq_false_iff_not]
      omega
    | true =>
      rw [hu] at hmem
      rw [eq_comm,decide_eq_true_eq]
      by_contra hlt
      cases (hmem.mpr ⟨by omega,hf⟩).2
  have hfind : (List.range totalFrames).find? (fun f => !pmmIsUsed p f) = some m := by
    rw [List.find?_range_eq_some]
    refine ⟨?_,List.mem_range.mpr hm,?_⟩
    · rw [hbit m hm]
      simp
    · intro f hf
      rw [hbit f (by omega)]
      simp [hf]
  unfold pmmAllocFrame
  rw [hfind]

theorem drawn_Ico {p : Pmm} {m : ℕ} (h : freeSet p = Finset.Ico m totalFrames) (n : ℕ) (hn : m+n ≤ totalFrames) :
    freeSet (drawn p n) = Finset.Ico (m+n) totalFrames := by
  induction n with
  | zero => exact h
  | succ n ih =>
    have hprev := ih (by omega)
    rw [drawn,allocFrame_Ico hprev (by omega)]
    ext f
    have hmem : f ∈ freeSet (drawn p n) ↔ m+n ≤ f ∧ f < totalFrames := by rw [hprev,Finset.mem_Ico]
    rw [mem_freeSet] at hmem
    rw [mem_freeSet,Finset.mem_Ico,isUsed_takeFrame,Bool.or_eq_false_iff,decide_eq_false_iff_not]
    constructor
    · rintro ⟨h1,h2,h3⟩
      have := (hmem.mp ⟨h1,h3⟩).1
      omega
    · rintro ⟨h1,h2⟩
      exact ⟨h2,by omega,(hmem.mpr ⟨by omega,h2⟩).2⟩

theorem nthFrame_Ico {p : Pmm} {m n : ℕ} (h : freeSet p = Finset.Ico m totalFrames) (hn : m+n < totalFrames) :
    nthFrame p n = m+n := by
  rw [nthFrame,allocFrame_Ico (drawn_Ico h n (by omega)) hn]
  exact Nat.mul_div_cancel _ (by decide)

/-- Memories that differ in free frames only, under one allocator. -/
structure DifferInFree (s t : Machine) : Prop where
  pmm : t.pmm = s.pmm
  agree : ∀ f, f ∉ freeSet s.pmm → SameFrame s.mem t.mem f

/-- Two loads that started in `s₀` and `t₀`, after `n` frames each: the frames of `P` are mapped and not filled yet. -/
structure Twin (live : List ℕ) (s₀ t₀ : Machine) (P : Set ℕ) (n : ℕ) (s t : Machine) : Prop where
  pmm : t.pmm = s.pmm
  drawn : s.pmm = drawn s₀.pmm n
  count : freeCount s.pmm+n = freeCount s₀.pmm
  agree : ∀ f, f ∉ freeSet s.pmm → f ∉ P → SameFrame s.mem t.mem f
  kept : ∀ f, f ∈ freeSet s.pmm ∨ f ∈ P → SameFrame s₀.mem s.mem f ∧ SameFrame t₀.mem t.mem f
  pending : ∀ f ∈ P, pmmIsUsed s.pmm f = true ∧ DataFrame s live f

theorem notMem_freeSet {p : Pmm} {f : ℕ} (h : pmmIsUsed p f = true) : f ∉ freeSet p := by
  rw [mem_freeSet,h]
  rintro ⟨-,hf⟩
  cases hf

theorem Takes.mem_freeSet {p q : Pmm} {g f : ℕ} (h : Takes p q g) : f ∈ freeSet q ↔ f ∈ freeSet p ∧ f ≠ g := by
  rw [FrameAllocator.mem_freeSet,FrameAllocator.mem_freeSet,h.bits,Bool.or_eq_false_iff,decide_eq_false_iff_not]
  constructor
  · rintro ⟨h1,h2,h3⟩
    exact ⟨⟨h1,h3⟩,h2⟩
  · rintro ⟨⟨h1,h3⟩,h2⟩
    exact ⟨h1,h2,h3⟩

/-! ## One write in both memories -/

theorem SameFrame.setEntry {m m' : Mem} {f : ℕ} (h : SameFrame m m' f) (a i v : ℕ) :
    SameFrame (setEntry m a i v) (setEntry m' a i v) f := by
  intro x hx
  rw [Paging.setEntry,Paging.setEntry,write32_apply,write32_apply,h x hx]

theorem SameFrame.memset {m m' : Mem} {f g : ℕ} (h : f ≠ g → SameFrame m m' f) :
    SameFrame (memset m (4096*g) 0 4096) (memset m' (4096*g) 0 4096) f := by
  intro x hx
  rw [memset_apply,memset_apply]
  by_cases hg : f = g
  · rw [if_pos (by omega),if_pos (by omega)]
  · rw [h hg x hx]

section Steps
variable {K : KernelLayout} {live : List ℕ} {s₀ t₀ s t : Machine} {P : Set ℕ} {n d : ℕ}

theorem Twin.start (h : DifferInFree s₀ t₀) : Twin live s₀ t₀ ∅ 0 s₀ t₀ := by
  refine ⟨h.pmm,rfl,Nat.add_zero _,?_,?_,?_⟩
  · intro f hf _
    exact h.agree f hf
  · intro f _
    exact ⟨SameFrame.refl _ _,SameFrame.refl _ _⟩
  · intro f hf
    cases hf

theorem Twin.sameFrame (h : Twin live s₀ t₀ P n s t) {f : ℕ} (hu : pmmIsUsed s.pmm f = true) (hf : f ∉ P) :
    SameFrame s.mem t.mem f := h.agree f (notMem_freeSet hu) hf

/-- A directory reads the same in both. -/
theorem Twin.dir (h : Twin live s₀ t₀ P n s t) (hs : Separated K s live) (hd : d ∈ live) : SameFrame s.mem t.mem d :=
  h.sameFrame (hs.dir_used hd) (fun hp => (h.pending d hp).2.dir hd)

/-- Nor is a table pending that a directory names. -/
theorem Twin.table_notMem (h : Twin live s₀ t₀ P n s t) (hs : Separated K s live) (hd : d ∈ live) {i : ℕ}
    (hi : i < 1024) (hp : isPresent (entry s.mem (4096*d) i) = true) : tableFrame s.mem d i ∉ P := by
  intro hP
  have hdata := (h.pending _ hP).2
  rcases hs.present_cases hd hi hp with hu | ⟨h2,he⟩
  · exact hdata.table d hd i _ hu rfl
  · have h1 := K.tables_low
    have h3 := hdata.low
    rw [tableFrame,he] at h3
    omega

theorem Twin.table (h : Twin live s₀ t₀ P n s t) (hs : Separated K s live) (hd : d ∈ live) {i : ℕ} (hi : i < 1024)
    (hp : isPresent (entry s.mem (4096*d) i) = true) : SameFrame s.mem t.mem (tableFrame s.mem d i) :=
  h.sameFrame (tableFrame_used hs hd hi hp) (h.table_notMem hs hd hi hp)

/-- Both directories translate alike. -/
theorem Twin.maps (h : Twin live s₀ t₀ P n s t) (hs : Separated K s live) (hd : d ∈ live) {v g : ℕ} (hv : v < 2^32)
    (hm : Maps s.mem d v g) : Maps t.mem d v g :=
  maps_congr hv hm (h.dir hs hd) (h.table hs hd (by omega) hm.pde)

/-- The second machine is separated too. -/
theorem Twin.separated (h : Twin live s₀ t₀ P n s t) (hs : Separated K s live) : Separated K t live := by
  have hk : SameFrame s.mem t.mem K.directoryFrame := by
    refine h.sameFrame (hs.sound.low _ K.directory_low) ?_
    intro hP
    have h1 := K.directory_low
    have h2 := (h.pending _ hP).2.low
    omega
  have hu : ∀ d ∈ live, Untouched s.mem t.mem d := by
    intro d hd
    refine ⟨h.dir hs hd,?_⟩
    intro i u hu
    have hsame := h.table hs hd hu.2.1 hu.2.2.1
    rwa [tableFrame,← hu.2.2.2] at hsame
  have ht : t = ⟨t.mem,s.pmm⟩ := by rw [← h.pmm]
  rw [ht]
  exact hs.untouched hk hu

/-- One allocation and a write of frames in both: `f` is the frame handed out, which becomes pending or is overwritten. -/
theorem Twin.alloc (h : Twin live s₀ t₀ P n s t) {f : ℕ} {q : Pmm} (hq : pmmAllocFrame s.pmm = (4096*f,q))
    (ht : Takes s.pmm q f) {m m' : Mem} {P' : Set ℕ} (hnew : ∀ g ∈ P', g ∉ P → g = f)
    (hagree : ∀ g, g ∉ freeSet q → g ∉ P' → SameFrame m m' g)
    (hkept : ∀ g, g ∈ freeSet q ∨ g ∈ P' → SameFrame s.mem m g ∧ SameFrame t.mem m' g)
    (hdata : ∀ g ∈ P', DataFrame ⟨m,q⟩ live g) : Twin live s₀ t₀ P' (n+1) ⟨m,q⟩ ⟨m',q⟩ := by
  have hq' : q = (pmmAllocFrame s.pmm).2 := by rw [hq]
  refine ⟨rfl,?_,?_,hagree,?_,?_⟩
  · rw [TwinLoads.drawn,← h.drawn]
    exact hq'
  · have h1 := ht.count
    have h2 := h.count
    dsimp only
    omega
  · intro g hg
    have hold : g ∈ freeSet s.pmm ∨ g ∈ P := by
      rcases hg with hg | hg
      · exact Or.inl ((Takes.mem_freeSet ht).mp hg).1
      · by_cases hP : g ∈ P
        · exact Or.inr hP
        · rw [hnew g hg hP]
          exact Or.inl (FrameAllocator.mem_freeSet.mpr ⟨ht.lt,ht.unused⟩)
    obtain ⟨h1,h2⟩ := h.kept g hold
    obtain ⟨h3,h4⟩ := hkept g hg
    exact ⟨h1.trans h3,h2.trans h4⟩
  · intro g hg
    refine ⟨?_,hdata g hg⟩
    by_cases hP : g ∈ P
    · exact ht.mono (h.pending g hP).1
    · rw [hnew g hg hP]
      exact ht.used

/-! ## Requests for pages -/

/-- A missing table is made and cleared in both. -/
theorem Twin.ensureTable (h : Twin live s₀ t₀ P n s t) (hs : Separated K s live) (hd : d ∈ live) {i : ℕ}
    (hi : i < 1024) {s₁ : Machine} (he : ensureTable (4096*d) i s = (true,s₁)) :
    ∃ n' t₁, ensureTable (4096*d) i t = (true,t₁) ∧ Twin live s₀ t₀ P n' s₁ t₁ ∧ TableReady d i s s₁ ∧
      (isPresent (entry s.mem (4096*d) i) = true → n' = n) := by
  have hentry : entry t.mem (4096*d) i = entry s.mem (4096*d) i := (h.dir hs hd).entry hi
  cases hp : isPresent (entry s.mem (4096*d) i) with
  | true =>
    rw [Paging.ensureTable,if_pos hp] at he
    cases he
    refine ⟨n,t,?_,h,Or.inl ⟨hp,rfl⟩,fun _ => rfl⟩
    rw [Paging.ensureTable,hentry,if_pos hp]
  | false =>
    have hi2 : 2 ≤ i := by
      rcases hs.ensureTable_cases (i := i) hd with ⟨hp',-⟩ | ⟨-,hi2,-⟩
      · rw [hp] at hp'
        cases hp'
      · exact hi2
    rcases allocFrame_cases hs.sound with ⟨h0,hq⟩ | ⟨f,q,hq,ht⟩
    · simp [Paging.ensureTable,hp,hq] at he
    · have hpos := ht.addr_ne_zero
      have hlink : ∀ m : Machine, m.pmm = s.pmm → entry m.mem (4096*d) i = entry s.mem (4096*d) i →
          Paging.ensureTable (4096*d) i m = (true,⟨linkTable m.mem d i f,q⟩) := by
        intro m hm hme
        simp only [Paging.ensureTable,hme,hp,Bool.false_eq_true,if_false,hm,hq,if_neg hpos,user_flags,linkTable]
      rw [hlink s rfl rfl] at he
      cases he
      refine ⟨n+1,_,hlink t h.pmm hentry,?_,Or.inr ⟨hp,hi2,f,q,ht,rfl⟩,?_⟩
      · have hused : ∀ g ∈ P, g ≠ d ∧ g ≠ f := fun g hg =>
          ⟨fun hgd => (h.pending g hg).2.dir (hgd ▸ hd),ht.ne (h.pending g hg).1⟩
        have hready : TableReady d i s ⟨linkTable s.mem d i f,q⟩ := Or.inr ⟨hp,hi2,f,q,ht,rfl⟩
        apply h.alloc hq ht
        · intro g hg hnot
          exact absurd hg hnot
        · intro g hg hP
          apply SameFrame.setEntry
          apply SameFrame.memset
          intro hgf
          exact h.agree g (fun hfree => hg ((Takes.mem_freeSet ht).mpr ⟨hfree,hgf⟩)) hP
        · intro g hg
          have hne : g ≠ d ∧ g ≠ f := by
            rcases hg with hg | hg
            · obtain ⟨hfree,hgf⟩ := (Takes.mem_freeSet ht).mp hg
              refine ⟨?_,hgf⟩
              rintro rfl
              exact notMem_freeSet (hs.dir_used hd) hfree
            · exact hused g hg
          exact ⟨sameFrame_linkTable _ hi hne.1 hne.2,sameFrame_linkTable _ hi hne.1 hne.2⟩
        · intro g hg
          exact (dataFrame_tableReady hs hd hi hready (h.pending g hg).1 (h.pending g hg).2).2
      · intro hf
        cases hf

/-- The new frame of a page becomes pending. -/
theorem Twin.enterFrame (h : Twin live s₀ t₀ P n s t) (hs : Separated K s live) (hd : d ∈ live) {v : ℕ}
    (hv : v < 2^32) (hp : isPresent (entry s.mem (4096*d) (v/4194304)) = true) {s' : Machine}
    (he : enterFrame (4096*d) (v/4194304) (v/4096 % 1024) s = (true,s')) :
    ∃ t', enterFrame (4096*d) (v/4194304) (v/4096 % 1024) t = (true,t') ∧
      Twin live s₀ t₀ (insert (nthFrame s₀.pmm n) P) (n+1) s' t' ∧ Maps s'.mem d v (nthFrame s₀.pmm n) := by
  have hi : v/4194304 < 1024 := by omega
  have hj : v/4096 % 1024 < 1024 := by omega
  have hentry : entry t.mem (4096*d) (v/4194304) = entry s.mem (4096*d) (v/4194304) := (h.dir hs hd).entry hi
  rcases allocFrame_cases hs.sound with ⟨h0,hq⟩ | ⟨f,q,hq,ht⟩
  · simp [Paging.enterFrame,hq] at he
  · have hpos := ht.addr_ne_zero
    have hf : nthFrame s₀.pmm n = f := by
      rw [nthFrame,← h.drawn,hq]
      exact Nat.mul_div_cancel_left f (by decide)
    have hlink : ∀ m : Machine, m.pmm = s.pmm →
        entry m.mem (4096*d) (v/4194304) = entry s.mem (4096*d) (v/4194304) →
        Paging.enterFrame (4096*d) (v/4194304) (v/4096 % 1024) m =
          (true,⟨linkPage m.mem (tableFrame s.mem d (v/4194304)) (v/4096 % 1024) f,q⟩) := by
      intro m hm hme
      simp only [Paging.enterFrame,hme,hm,hq,if_neg hpos,user_flags,pageBase_eq,linkPage,tableFrame]
    rw [hlink s rfl rfl] at he
    cases he
    have heffect : PageEffect s live d v f ⟨linkPage s.mem (tableFrame s.mem d (v/4194304)) (v/4096 % 1024) f,q⟩ := by
      obtain ⟨g,hg⟩ := pageMapped_effect hs hd hv ⟨s,f,q,Or.inl ⟨hp,rfl⟩,ht,rfl⟩
      obtain rfl := hg.maps.unique (maps_entered hs hd hv hp ht)
      exact hg
    refine ⟨_,hlink t h.pmm hentry,?_,?_⟩
    · rw [hf]
      -- the table written to is neither free nor pending
      have hne : ∀ g, g ∈ freeSet q ∨ g ∈ insert f P → g ≠ tableFrame s.mem d (v/4194304) := by
        intro g hg heq
        have hu := tableFrame_used hs hd hi hp
        rw [← heq] at hu
        rcases hg with hg | rfl | hg
        · exact notMem_freeSet hu ((Takes.mem_freeSet ht).mp hg).1
        · exact ht.ne hu rfl
        · exact h.table_notMem hs hd hi hp (heq ▸ hg)
      apply h.alloc hq ht
      · intro g hg hnot
        exact hg.resolve_right hnot
      · intro g hg hP
        apply SameFrame.setEntry
        refine h.agree g ?_ (fun hgP => hP (Set.mem_insert_of_mem f hgP))
        intro hfree
        exact hg ((Takes.mem_freeSet ht).mpr ⟨hfree,fun hgf => hP (hgf ▸ Set.mem_insert f P)⟩)
      · intro g hg
        exact ⟨sameFrame_linkPage _ hj (hne g hg),sameFrame_linkPage _ hj (hne g hg)⟩
      · rintro g (rfl | hg)
        · exact heffect.data
        · exact heffect.keepsData g (h.pending g hg).1 (h.pending g hg).2
    · rw [hf]
      exact heffect.maps

/-- One page of a request. -/
theorem Twin.page (h : Twin live s₀ t₀ P n s t) (hs : Separated K s live) (hd : d ∈ live) {v : ℕ} (hv : v < 2^32)
    {s' : Machine} (he : allocUserPage (4096*d) v s = (true,s')) :
    ∃ n' t', allocUserPage (4096*d) v t = (true,t') ∧ Separated K s' live ∧
      Twin live s₀ t₀ (insert (nthFrame s₀.pmm n') P) (n'+1) s' t' ∧ Maps s'.mem d v (nthFrame s₀.pmm n') ∧
      (isPresent (entry s.mem (4096*d) (v/4194304)) = true → n' = n) ∧
      ∀ w f, w < 2^32 → w/4096 ≠ v/4096 → Maps s.mem d w f → Maps s'.mem d w f := by
  have hi : v/4194304 < 1024 := by omega
  rcases hready : Paging.ensureTable (4096*d) (v/4194304) s with ⟨ok,s₁⟩
  rw [allocUserPage,hready] at he
  cases ok with
  | false => cases he
  | true =>
    dsimp only at he
    obtain ⟨n₁,t₁,het,htw,htr,hn⟩ := h.ensureTable hs hd hi hready
    obtain ⟨hs₁,hp₁⟩ := hs.tableReady hd hi htr
    obtain ⟨t',het',htw',hm⟩ := htw.enterFrame hs₁ hd hv hp₁ he
    have hpage : PageMapped d v s s' := by
      rcases hs₁.enterFrame_cases (d := d) (i := v/4194304) (j := v/4096 % 1024) with ⟨-,hf⟩ | ⟨g,q,hg,hf⟩
      · rw [hf] at he
        cases he
      · rw [hf] at he
        cases he
        exact ⟨s₁,g,q,htr,hg,rfl⟩
    obtain ⟨g,heffect⟩ := pageMapped_effect hs hd hv hpage
    refine ⟨n₁,t',?_,hs.pageMapped hd hv hpage,htw',hm,hn,heffect.keeps⟩
    rw [allocUserPage,het]
    exact het'

/-- What a request that succeeded did in both: `js` are the numbers of the frames that its pages got. -/
structure TwinPages (K : KernelLayout) (live : List ℕ) (s₀ t₀ : Machine) (P : Set ℕ) (n d : ℕ) (vs : List ℕ)
    (s t s' : Machine) (n' : ℕ) (js : List ℕ) (t' : Machine) : Prop where
  other : allocUserPages (4096*d) vs t = (true,t')
  separated : Separated K s' live
  twin : Twin live s₀ t₀ (P ∪ { f | ∃ j ∈ js, f = nthFrame s₀.pmm j }) n' s' t'
  maps : List.Forall₂ (fun v j => Maps s'.mem d v (nthFrame s₀.pmm j)) vs js
  keeps : ∀ w f, w < 2^32 → (∀ v ∈ vs, w/4096 ≠ v/4096) → Maps s.mem d w f → Maps s'.mem d w f
  consecutive : ∀ i, (∀ v ∈ vs, v/4194304 = i) → ∃ n₁, (isPresent (entry s.mem (4096*d) i) = true → n₁ = n) ∧
    js = List.range' n₁ vs.length ∧ n' = n₁+vs.length

theorem Twin.pages (hd : d ∈ live) {vs : List ℕ} (hvs : ∀ v ∈ vs, v < 2^32)
    (hne : vs.Pairwise (fun v w => v/4096 ≠ w/4096)) {s' : Machine} (h : Twin live s₀ t₀ P n s t)
    (hs : Separated K s live) (he : allocUserPages (4096*d) vs s = (true,s')) :
    ∃ n' js t', TwinPages K live s₀ t₀ P n d vs s t s' n' js t' := by
  induction vs generalizing s t P n with
  | nil =>
    cases he
    refine ⟨n,[],t,rfl,hs,?_,.nil,fun _ _ _ _ hm => hm,fun _ _ => ⟨n,fun _ => rfl,rfl,rfl⟩⟩
    have hsame : P ∪ { f | ∃ j ∈ ([] : List ℕ), f = nthFrame s₀.pmm j } = P := by
      ext f
      simp
    rw [hsame]
    exact h
  | cons v vs ih =>
    have hv := hvs v List.mem_cons_self
    have hrest := fun w hw => hvs w (List.mem_cons_of_mem v hw)
    obtain ⟨hhead,htail⟩ := List.pairwise_cons.mp hne
    rcases hpage : allocUserPage (4096*d) v s with ⟨ok,s₁⟩
    rw [allocUserPages,hpage] at he
    cases ok with
    | false => cases he
    | true =>
      dsimp only at he
      obtain ⟨n₁,t₁,het,hs₁,htw,hm,hn,hkeep⟩ := h.page hs hd hv hpage
      obtain ⟨n',js,t',hp⟩ := ih hrest htail htw hs₁ he
      have hmv : Maps s'.mem d v (nthFrame s₀.pmm n₁) := hp.keeps v _ hv hhead hm
      refine ⟨n',n₁ :: js,t',?_,hp.separated,?_,.cons hmv hp.maps,?_,?_⟩
      · rw [allocUserPages,het]
        exact hp.other
      · have hsame : P ∪ { f | ∃ j ∈ n₁ :: js, f = nthFrame s₀.pmm j } =
            insert (nthFrame s₀.pmm n₁) P ∪ { f | ∃ j ∈ js, f = nthFrame s₀.pmm j } := by
          ext f
          simp only [Set.mem_union,Set.mem_insert_iff,Set.mem_ofPred_eq,List.mem_cons,exists_eq_or_imp]
          rw [← or_assoc,or_comm (a := f ∈ P)]
        rw [hsame]
        exact hp.twin
      · intro w f hw hnot hmw
        exact hp.keeps w f hw (fun x hx => hnot x (List.mem_cons_of_mem v hx))
          (hkeep w f hw (hnot v List.mem_cons_self) hmw)
      · intro i hall
        have hvi := hall v List.mem_cons_self
        obtain ⟨n₂,hpres,hjs,hn'⟩ := hp.consecutive i (fun w hw => hall w (List.mem_cons_of_mem v hw))
        obtain rfl := hpres (hvi ▸ hm.pde)
        refine ⟨n₁,fun hpi => hn (hvi ▸ hpi),?_,?_⟩
        · rw [hjs,List.length_cons,List.range'_succ]
        · rw [hn',List.length_cons]
          omega

/-! ## Filling -/

/-- A page filled in both is no longer pending. -/
theorem Twin.fill {img : Image} {ph : Phdr} {p q : Pmm} {m m₁ k k₁ : Mem} {v g : ℕ}
    (h : Twin live s₀ t₀ P n ⟨m,p⟩ ⟨k,q⟩) (hg : DataFrame ⟨m,p⟩ live g) (hu : pmmIsUsed p g = true)
    (hf : Filled img ph v g m m₁) (hf' : Filled img ph v g k k₁) : Twin live s₀ t₀ (P \ {g}) n ⟨m₁,p⟩ ⟨k₁,q⟩ := by
  refine ⟨h.pmm,h.drawn,h.count,?_,?_,?_⟩
  · intro f hfree hP
    by_cases hfg : f = g
    · intro x hx
      have hx' : x = 4096*g+x % 4096 := by omega
      rw [hx']
      exact (hf'.bytes _ (by omega)).trans (hf.bytes _ (by omega)).symm
    · have hold := h.agree f hfree (fun hfP => hP ⟨hfP,hfg⟩)
      intro x hx
      exact (hf'.others f hfg x hx).trans ((hold x hx).trans (hf.others f hfg x hx).symm)
  · intro f hfP
    have hfg : f ≠ g := by
      rintro rfl
      rcases hfP with hfree | hfP
      · exact notMem_freeSet hu hfree
      · exact hfP.2 rfl
    obtain ⟨h1,h2⟩ := h.kept f (hfP.imp_right And.left)
    exact ⟨h1.trans (hf.others f hfg),h2.trans (hf'.others f hfg)⟩
  · intro f hfP
    obtain ⟨h1,h2⟩ := h.pending f hfP.1
    exact ⟨h1,dataFrame_dataFrame hg hf.others h2⟩

/-- All pages of a segment filled: nothing is pending. -/
theorem Twin.filled {img : Image} {ph : Phdr} {p q : Pmm} {m m' k k' : Mem} {s₁ : Machine} {vs : List ℕ} (hd : d ∈ live)
    (hf : PagesFilled img ph d vs m m') (hf' : PagesFilled img ph d vs k k') (h : Twin live s₀ t₀ P n ⟨m,p⟩ ⟨k,q⟩)
    (hs : Separated K ⟨m,p⟩ live) (hr : Ready live d s₁ ⟨m,p⟩ vs) (hP : ∀ g ∈ P, ∃ v ∈ vs, Maps m d v g) :
    Twin live s₀ t₀ ∅ n ⟨m',p⟩ ⟨k',q⟩ ∧ Separated K ⟨m',p⟩ live := by
  induction hf generalizing P k with
  | nil m =>
    cases hf'
    have hempty : P = ∅ := by
      rw [Set.eq_empty_iff_forall_notMem]
      intro g hg
      obtain ⟨v,hv,-⟩ := hP g hg
      cases hv
    exact ⟨hempty ▸ h,hs⟩
  | @cons v g vs m m₁ m' hm hfill _ ih =>
    cases hf' with
    | @cons _ g' _ _ k₁ _ hm' hfill' hrest' =>
      obtain ⟨hv,-,g₁,hg⟩ := hr v List.mem_cons_self
      obtain rfl := hm.unique hg.maps
      obtain rfl := hm'.unique (h.maps hs hd hv hm)
      have hready : Ready live d s₁ ⟨m,p⟩ vs := fun w hw => hr w (List.mem_cons_of_mem v hw)
      apply ih hrest' (h.fill hg.data hg.used hfill hfill') (separated_dataFrame hs hg.data hfill.others)
        (hready.filled hs hd hg hfill.others)
      rintro f ⟨hfP,hfg⟩
      obtain ⟨w,hw,hmw⟩ := hP f hfP
      rcases List.mem_cons.mp hw with rfl | hw
      · exact absurd (hmw.unique hm) hfg
      · exact ⟨w,hw,maps_dataFrame hs hg.data hfill.others hd (hready w hw).1 hmw⟩

/-! ## Segments -/

theorem Twin.segment {img : Image} {i : ℕ} {a a' b : UserLoad} (h : Twin live s₀ t₀ ∅ n a.mach b.mach)
    (hs : Separated K a.mach live) (hd : d ∈ live) (he : loadUserSegment img (4096*d) i a = .next a') :
    ∃ n' b', loadUserSegment img (4096*d) i b = .next b' ∧ Twin live s₀ t₀ ∅ n' a'.mach b'.mach ∧
      Separated K a'.mach live := by
  rcases loadUserSegment_next hs hd he with ⟨hskip,hmach⟩ | ⟨s₁,hdone⟩
  · rw [hmach]
    exact ⟨n,_,loadUserSegment_skip hskip,h,hs⟩
  · have hvs := fun w (hw : w ∈ (img.phdr i).pages) => (mem_pages hw).1
    obtain ⟨n',js,t',hp⟩ := h.pages hd hvs (pages_pairwise _) hs hdone.alloc
    have hm' := pagesMapped_of_alloc (h.separated hs) hd hvs hp.other
    have hfill' := segment_fill (h.separated hs) hd hm' (headerReads img i++b.reads)
    rw [if_neg hdone.fits] at hfill'
    obtain ⟨b',hb,hf',hpmm⟩ := hfill'
    have hall : ∀ g ∈ ∅ ∪ { f | ∃ j ∈ js, f = nthFrame s₀.pmm j }, ∃ v ∈ (img.phdr i).pages, Maps s₁.mem d v g := by
      rintro g (hg | ⟨j,hj,rfl⟩)
      · cases hg
      · obtain ⟨k,hk,rfl⟩ := List.mem_iff_getElem.mp hj
        have hk' : k < (img.phdr i).pages.length := by
          rw [hp.maps.length_eq]
          exact hk
        exact ⟨_,List.getElem_mem hk',hp.maps.get hk' hk⟩
    have hfilled := Twin.filled hd hdone.filled hf' hp.twin hp.separated hdone.ready hall
    rw [← hdone.pmm,← hpmm] at hfilled
    exact ⟨n',b',(loadUserSegment_allocated hdone.type hdone.memsz hdone.inside hp.other).trans hb,hfilled⟩

theorem Twin.segments {img : Image} (hd : d ∈ live) {is : List ℕ} {a a' b : UserLoad}
    (h : Twin live s₀ t₀ ∅ n a.mach b.mach) (hs : Separated K a.mach live)
    (he : loadUserSegments img (4096*d) is a = .next a') :
    ∃ n' b', loadUserSegments img (4096*d) is b = .next b' ∧ Twin live s₀ t₀ ∅ n' a'.mach b'.mach ∧
      Separated K a'.mach live := by
  induction is generalizing a b n with
  | nil =>
    cases he
    exact ⟨n,b,rfl,h,hs⟩
  | cons i is ih =>
    rw [loadUserSegments] at he
    cases hseg : loadUserSegment img (4096*d) i a with
    | next a₁ =>
      rw [hseg] at he
      obtain ⟨n₁,b₁,hb,htw,hs₁⟩ := h.segment hs hd hseg
      obtain ⟨n',b',hb',hrest⟩ := ih htw hs₁ he
      refine ⟨n',b',?_,hrest⟩
      rw [loadUserSegments,hb]
      exact hb'
    | fail a₁ =>
      rw [hseg] at he
      cases he
    | overrun a₁ =>
      rw [hseg] at he
      cases he

/-- An image that one load accepts the other accepts as well, with the same entry point. -/
theorem Twin.load {img : Image} (hd : d ∈ live) (h : Twin live s₀ t₀ ∅ n s t) (hs : Separated K s live) {e : ℕ}
    {a : UserLoad} (he : elfLoadUser img (4096*d) s = (some e,a)) (hne : e ≠ 0) :
    ∃ n' b, elfLoadUser img (4096*d) t = (some e,b) ∧ Twin live s₀ t₀ ∅ n' a.mach b.mach ∧ Separated K a.mach live := by
  unfold elfLoadUser at he ⊢
  by_cases hlen : img.len < ehdrSize ∨ 4096*d = 0
  · rw [if_pos hlen] at he
    cases he
    exact absurd rfl hne
  · rw [if_neg hlen] at he ⊢
    by_cases hok : img.headerOk = true
    · rw [if_pos hok] at he ⊢
      cases hseg : loadUserSegments img (4096*d) (List.range img.ePhnum) ⟨s,[(0,ehdrSize)]⟩ with
      | next a₁ =>
        rw [hseg] at he
        cases he
        obtain ⟨n',b,hb,htw⟩ := Twin.segments (b := ⟨t,[(0,ehdrSize)]⟩) hd h hs hseg
        rw [hb]
        exact ⟨n',b,rfl,htw⟩
      | fail a₁ =>
        rw [hseg] at he
        cases he
        exact absurd rfl hne
      | overrun a₁ =>
        rw [hseg] at he
        cases he
    · rw [if_neg hok] at he
      cases he
      exact absurd rfl hne

theorem createPd_alloc (K : KernelLayout) (s : Machine) :
    (pagingCreatePd K s).1 = (pmmAllocFrame s.pmm).1 ∧ (pagingCreatePd K s).2.pmm = (pmmAllocFrame s.pmm).2 := by
  unfold pagingCreatePd
  generalize pmmAllocFrame s.pmm = r
  obtain ⟨pd,q⟩ := r
  dsimp only
  by_cases h : pd = 0
  · rw [if_pos h]
    exact ⟨h.symm,rfl⟩
  · rw [if_neg h]
    exact ⟨rfl,rfl⟩

/-- Both directories start alike. -/
theorem Twin.freshDir (h : DifferInFree s₀ t₀) (hs : Separated K s₀ live) {pd : ℕ} (he : pagingCreatePd K s₀ = (pd,s))
    (hpd : pd ≠ 0) : ∃ d t, pd = 4096*d ∧ pagingCreatePd K t₀ = (4096*d,t) ∧
      Twin (d :: live) s₀ t₀ ∅ 1 s t ∧ Separated K s (d :: live) := by
  have hst : Separated K t₀ live := (Twin.start h).separated hs
  rcases hs.createPd_cases with ⟨-,he'⟩ | ⟨d,q,ht,he'⟩
  · rw [he'] at he
    cases he
    exact absurd rfl hpd
  · rcases hst.createPd_cases with ⟨h0,-⟩ | ⟨d',q',ht',he''⟩
    · have hcount := ht.count
      rw [h.pmm] at h0
      omega
    · -- the same call on the same allocator
      have h1 := createPd_alloc K s₀
      have h2 := createPd_alloc K t₀
      rw [he'] at h1
      rw [he'',h.pmm] at h2
      have hq : pmmAllocFrame s₀.pmm = (4096*d,q) := Prod.ext h1.1.symm h1.2.symm
      rw [hq] at h2
      obtain rfl : d' = d := Nat.eq_of_mul_eq_mul_left (by decide) h2.1
      obtain rfl : q' = q := h2.2
      rw [he'] at he
      cases he
      refine ⟨d',_,rfl,he'',?_,hs.freshDir ht⟩
      apply (Twin.start h).alloc hq ht
      · intro g hg
        cases hg
      · intro g hg _
        apply SameFrame.setEntry
        apply SameFrame.setEntry
        apply SameFrame.memset
        intro hgd
        exact h.agree g (fun hfree => hg ((Takes.mem_freeSet ht).mpr ⟨hfree,hgd⟩))
      · rintro g (hg | hg)
        · have hgd := ((Takes.mem_freeSet ht).mp hg).2
          exact ⟨sameFrame_freshDir K _ hgd,sameFrame_freshDir K _ hgd⟩
        · cases hg
      · intro g hg
        cases hg

end Steps

end VesperOS.TwinLoads
