import VesperOS.Loader.LoadPlan

/-! # Are all frames of a load found again?

A load is balanced as long as the frames in use are those in use before the
directory was created together with those the directory holds: then destroying
the directory restores the allocator. A page entered in a kernel table, or
entered a second time, leaves a frame in use that the directory does not hold;
no later step finds it again.
-/
namespace VesperOS.FrameBalance
open ByteMemory FrameAllocator Paging AddressSpaces Translation LoadPlan SpaceLifecycle

/-- The books after the pages `vs` were mapped; `p₀` is the allocator before the
directory was created. -/
structure Balanced (p₀ : Pmm) (d : ℕ) (vs : List ℕ) (s : Machine) : Prop where
  bits : ∀ f, pmmIsUsed s.pmm f = true ↔ pmmIsUsed p₀ f = true ∨ ∃ r, Holds s.mem d r f
  fresh : ∀ r f, Holds s.mem d r f → pmmIsUsed p₀ f = false
  pages : ∀ i j f, Holds s.mem d (.page i j) f → ∃ v ∈ vs, v/4194304 = i ∧ v/4096 % 1024 = j

/-- A frame that was free and is now in use, but not held. -/
structure Leaked (p₀ : Pmm) (d : ℕ) (s : Machine) (g : ℕ) : Prop where
  before : pmmIsUsed p₀ g = false
  used : pmmIsUsed s.pmm g = true
  lost : ∀ r, ¬ Holds s.mem d r g

theorem Takes.unused_before {p q p₀ : Pmm} {g : ℕ} (hg : Takes p q g)
    (hm : ∀ f, pmmIsUsed p₀ f = true → pmmIsUsed p f = true) : pmmIsUsed p₀ g = false := by
  cases hu : pmmIsUsed p₀ g with
  | false => rfl
  | true => exact (hm g hu).symm.trans hg.unused

theorem Balanced.mono {p₀ : Pmm} {d : ℕ} {vs : List ℕ} {s : Machine} (hb : Balanced p₀ d vs s) {f : ℕ}
    (hf : pmmIsUsed p₀ f = true) : pmmIsUsed s.pmm f = true := (hb.bits f).mpr (Or.inl hf)

section Steps
variable {K : KernelLayout} {s : Machine} {live : List ℕ} (h : Separated K s live) {d : ℕ} (hd : d ∈ live)
include h hd

/-- What the directory holds after a frame is entered for region `i`. -/
theorem holds_enter {i j g : ℕ} {q : Pmm} (hi : i < 1024) (hj : j < 1024)
    (hp : isPresent (entry s.mem (4096*d) i) = true) (hg : Takes s.pmm q g) (r : Role) (f : ℕ) :
    Holds (linkPage s.mem (entry s.mem (4096*d) i/4096) j g) d r f ↔
      if 2 ≤ i ∧ r = .page i j then f = g else Holds s.mem d r f := by
  rcases h.present_cases hd hi hp with hu | ⟨h2,he⟩
  · rw [h.holds_linkPage hd hu hj hg hd]
    simp only [true_and,hu.1]
  · rw [he,(h.untouched_kernelTable hd hj h2).holds,if_neg (by omega)]

theorem holds_tableReady {i : ℕ} {s₁ : Machine} (hi : i < 1024) (hr : TableReady d i s s₁) :
    s₁ = s ∨ ∃ t, Takes s.pmm s₁.pmm t ∧
      ∀ r f, Holds s₁.mem d r f ↔ Holds s.mem d r f ∨ (r = .table i ∧ f = t) := by
  rcases hr with ⟨_,rfl⟩ | ⟨hp,hi2,t,q,ht,rfl⟩
  · exact Or.inl rfl
  · refine Or.inr ⟨t,ht,fun r f => ?_⟩
    rw [h.holds_linkTable hd hi2 hi hp ht hd]
    simp

theorem balanced_tableReady {p₀ : Pmm} {vs : List ℕ} {i : ℕ} {s₁ : Machine} (hi : i < 1024)
    (hr : TableReady d i s s₁) (hb : Balanced p₀ d vs s) : Balanced p₀ d vs s₁ := by
  rcases holds_tableReady h hd hi hr with rfl | ⟨t,ht,hold⟩
  · exact hb
  · constructor
    · intro f
      rw [ht.bits,Bool.or_eq_true,decide_eq_true_eq,hb.bits]
      constructor
      · rintro (rfl | hf | ⟨r,hf⟩)
        · exact Or.inr ⟨.table i,(hold _ _).mpr (Or.inr ⟨rfl,rfl⟩)⟩
        · exact Or.inl hf
        · exact Or.inr ⟨r,(hold _ _).mpr (Or.inl hf)⟩
      · rintro (hf | ⟨r,hf⟩)
        · exact Or.inr (Or.inl hf)
        · rcases (hold _ _).mp hf with hf | ⟨_,rfl⟩
          · exact Or.inr (Or.inr ⟨r,hf⟩)
          · exact Or.inl rfl
    · intro r f hf
      rcases (hold _ _).mp hf with hf | ⟨_,rfl⟩
      · exact hb.fresh r f hf
      · exact Takes.unused_before ht fun _ => hb.mono
    · intro k j f hf
      rcases (hold _ _).mp hf with hf | ⟨he,_⟩
      · exact hb.pages k j f hf
      · cases he

/-- A page entered for the first time in a table of the directory. -/
theorem balanced_enter {p₀ : Pmm} {vs : List ℕ} {v g : ℕ} {q : Pmm} (hv : v < 2^32) (hhigh : 0x800000 ≤ v)
    (hp : isPresent (entry s.mem (4096*d) (v/4194304)) = true) (hg : Takes s.pmm q g)
    (hnew : ∀ w ∈ vs, w/4096 ≠ v/4096) (hb : Balanced p₀ d vs s) :
    Balanced p₀ d (vs++[v])
      ⟨linkPage s.mem (entry s.mem (4096*d) (v/4194304)/4096) (v/4096 % 1024) g,q⟩ := by
  have h2 : 2 ≤ v/4194304 := by omega
  have hold := holds_enter h hd (by omega) (by omega) hp hg (i := v/4194304) (j := v/4096 % 1024)
  simp only [h2,true_and] at hold
  have hempty : ∀ f, ¬ Holds s.mem d (.page (v/4194304) (v/4096 % 1024)) f := by
    intro f hf
    obtain ⟨w,hw,h3,h4⟩ := hb.pages _ _ f hf
    exact hnew w hw (samePage_iff.mp ⟨h3,h4⟩)
  constructor
  · intro f
    dsimp only
    rw [hg.bits,Bool.or_eq_true,decide_eq_true_eq,hb.bits]
    constructor
    · rintro (rfl | hf | ⟨r,hf⟩)
      · exact Or.inr ⟨.page (v/4194304) (v/4096 % 1024),by rw [hold,if_pos rfl]⟩
      · exact Or.inl hf
      · refine Or.inr ⟨r,?_⟩
        rw [hold]
        split
        · rename_i he
          exact absurd (he ▸ hf) (hempty f)
        · exact hf
    · rintro (hf | ⟨r,hf⟩)
      · exact Or.inr (Or.inl hf)
      · rw [hold] at hf
        split at hf
        · exact Or.inl hf
        · exact Or.inr (Or.inr ⟨r,hf⟩)
  · intro r f hf
    rw [hold] at hf
    split at hf
    · rw [hf]
      exact Takes.unused_before hg fun _ => hb.mono
    · exact hb.fresh r f hf
  · intro i j f hf
    rw [hold] at hf
    split at hf
    · rename_i he
      injection he with h3 h4
      exact ⟨v,List.mem_append_right _ (List.mem_singleton_self v),h3.symm,h4.symm⟩
    · obtain ⟨w,hw,h3⟩ := hb.pages i j f hf
      exact ⟨w,List.mem_append_left _ hw,h3⟩

/-! ## Lost frames -/

theorem leaked_tableReady {p₀ : Pmm} {i g : ℕ} {s₁ : Machine} (hi : i < 1024) (hr : TableReady d i s s₁)
    (hl : Leaked p₀ d s g) : Leaked p₀ d s₁ g := by
  rcases holds_tableReady h hd hi hr with rfl | ⟨t,ht,hold⟩
  · exact hl
  · refine ⟨hl.before,ht.mono hl.used,fun r hr => ?_⟩
    rcases (hold _ _).mp hr with hr | ⟨_,rfl⟩
    · exact hl.lost r hr
    · exact ht.ne hl.used rfl

theorem leaked_enter {p₀ : Pmm} {i j g f : ℕ} {q : Pmm} (hi : i < 1024) (hj : j < 1024)
    (hp : isPresent (entry s.mem (4096*d) i) = true) (hg : Takes s.pmm q g) (hl : Leaked p₀ d s f) :
    Leaked p₀ d ⟨linkPage s.mem (entry s.mem (4096*d) i/4096) j g,q⟩ f := by
  refine ⟨hl.before,hg.mono hl.used,fun r hr => ?_⟩
  rw [holds_enter h hd hi hj hp hg] at hr
  split at hr
  · exact hg.ne hl.used hr
  · exact hl.lost r hr

/-- A frame entered in a kernel table is not held by the directory. -/
theorem leaked_enter_low {p₀ : Pmm} {vs : List ℕ} {i j g : ℕ} {q : Pmm} (hi : i < 2) (hj : j < 1024)
    (hp : isPresent (entry s.mem (4096*d) i) = true) (hg : Takes s.pmm q g) (hb : Balanced p₀ d vs s) :
    Leaked p₀ d ⟨linkPage s.mem (entry s.mem (4096*d) i/4096) j g,q⟩ g := by
  refine ⟨Takes.unused_before hg fun _ => hb.mono,hg.used,fun r hr => ?_⟩
  rw [holds_enter h hd (by omega) hj hp hg,if_neg (by omega)] at hr
  exact hg.ne (h.used hd hr) rfl

/-- Entering a page again loses the frame it had. -/
theorem leaked_enter_again {p₀ : Pmm} {vs : List ℕ} {i j g f : ℕ} {q : Pmm} (hi : i < 1024) (hj : j < 1024)
    (hp : isPresent (entry s.mem (4096*d) i) = true) (hg : Takes s.pmm q g) (hb : Balanced p₀ d vs s)
    (hf : Holds s.mem d (.page i j) f) :
    Leaked p₀ d ⟨linkPage s.mem (entry s.mem (4096*d) i/4096) j g,q⟩ f := by
  have hu := h.used hd hf
  have h2 : 2 ≤ i := by
    obtain ⟨t,ht,_⟩ := holds_page.mp hf
    exact ht.1
  refine ⟨hb.fresh _ _ hf,hg.mono hu,fun r hr => ?_⟩
  rw [holds_enter h hd hi hj hp hg] at hr
  split at hr
  · exact hg.ne hu hr
  · rename_i hne
    exact hne ⟨h2,(h.unique hd hd hr hf).2⟩

end Steps

section Run
variable {K : KernelLayout} {live : List ℕ} {d : ℕ} {s₀ : Machine} (h₀ : Separated K s₀ live) (hd : d ∈ live)
  {p₀ : Pmm} (hb₀ : Balanced p₀ d [] s₀)
include h₀ hd hb₀

/-- Only user pages, and none of them twice. -/
def Tidy (vs : List ℕ) : Prop := (∀ v ∈ vs, 0x800000 ≤ v) ∧ vs.Pairwise (fun v w => v/4096 ≠ w/4096)

omit h₀ hd hb₀ in
theorem tidy_snoc {vs : List ℕ} {v : ℕ} :
    Tidy (vs++[v]) ↔ Tidy vs ∧ 0x800000 ≤ v ∧ ∀ w ∈ vs, w/4096 ≠ v/4096 := by
  simp only [Tidy,List.pairwise_append,List.mem_append,List.mem_singleton,List.pairwise_singleton,true_and,
    forall_eq]
  constructor
  · rintro ⟨h1,h2,h3⟩
    exact ⟨⟨fun w hw => h1 w (Or.inl hw),h2⟩,h1 v (Or.inr rfl),h3⟩
  · rintro ⟨⟨h1,h2⟩,h3,h4⟩
    refine ⟨?_,h2,h4⟩
    rintro w (hw | rfl)
    · exact h1 w hw
    · exact h3

omit h₀ hb₀ in
theorem balanced_fill {vs : List ℕ} {s : Machine} {v g : ℕ} {m' : Mem} (hg : FreshData s₀ live d v g s)
    (hm : ∀ k, k ≠ g → SameFrame s.mem m' k) (hb : Balanced p₀ d vs s) : Balanced p₀ d vs ⟨m',s.pmm⟩ := by
  have hold := (untouched_dataFrame hg.data hm hd).holds
  constructor
  · intro f
    simp only [hold]
    exact hb.bits f
  · intro r f hf
    exact hb.fresh r f ((hold r f).mp hf)
  · intro i j f hf
    exact hb.pages i j f ((hold _ f).mp hf)

theorem LoadRun.balanced {vs : List ℕ} {s : Machine} (hr : LoadRun live d s₀ vs s) (ht : Tidy vs) :
    Balanced p₀ d vs s := by
  induction hr with
  | start => exact hb₀
  | table hr hi hready ih => exact balanced_tableReady (hr.separated h₀ hd) hd hi hready (ih ht)
  | @page vs s s' v hr hv hm ih =>
    obtain ⟨ht,hhigh,hnew⟩ := tidy_snoc.mp ht
    obtain ⟨s₁,g,q,hready,hg,rfl⟩ := hm
    have h := hr.separated h₀ hd
    have hi : v/4194304 < 1024 := by omega
    obtain ⟨h₁,hp⟩ := h.tableReady hd hi hready
    exact balanced_enter h₁ hd hv hhigh hp hg hnew (balanced_tableReady h hd hi hready (ih ht))
  | fill _ hg hm ih => exact balanced_fill hd hg hm (ih ht)

omit h₀ hd hb₀ in
theorem Maps.holds {m : Mem} {v g : ℕ} (hm : Maps m d v g) (hv : v < 2^32) (hhigh : 0x800000 ≤ v) :
    Holds m d (.page (v/4194304) (v/4096 % 1024)) g := by
  have hpte := hm.pte
  rw [pteOf,tableFrame] at hpte
  refine ⟨_,⟨by omega,by omega,hm.pde,rfl⟩,by omega,?_,?_⟩
  · rw [hpte]
    exact isPresent_user g
  · rw [hpte]
    exact (div_user g).symm

/-- A load that is not tidy has lost a frame. -/
theorem LoadRun.leaked {vs : List ℕ} {s : Machine} (hr : LoadRun live d s₀ vs s) (ht : ¬ Tidy vs) :
    ∃ g, Leaked p₀ d s g := by
  induction hr with
  | start => exact absurd ⟨by simp,List.Pairwise.nil⟩ ht
  | table hr hi hready ih =>
    obtain ⟨g,hg⟩ := ih ht
    exact ⟨g,leaked_tableReady (hr.separated h₀ hd) hd hi hready hg⟩
  | @page vs s s' v hr hv hm ih =>
    obtain ⟨s₁,g,q,hready,hg,rfl⟩ := hm
    have h := hr.separated h₀ hd
    have hi : v/4194304 < 1024 := by omega
    have hj : v/4096 % 1024 < 1024 := by omega
    obtain ⟨h₁,hp⟩ := h.tableReady hd hi hready
    by_cases htidy : Tidy vs
    · have hb := balanced_tableReady h hd hi hready (LoadRun.balanced h₀ hd hb₀ hr htidy)
      by_cases hhigh : 0x800000 ≤ v
      · obtain ⟨w,hw,hsame⟩ : ∃ w ∈ vs, w/4096 = v/4096 := by
          by_contra hno
          exact ht (tidy_snoc.mpr ⟨htidy,hhigh,fun w hw he => hno ⟨w,hw,he⟩⟩)
        obtain ⟨_,f,hmaps,_⟩ := (hr.table hi hready).mapped h₀ hd w hw
        have hf := Maps.holds (maps_samePage hsame hmaps) hv hhigh
        exact ⟨f,leaked_enter_again h₁ hd hi hj hp hg hb hf⟩
      · exact ⟨g,leaked_enter_low h₁ hd (by omega) hj hp hg hb⟩
    · obtain ⟨f,hf⟩ := ih htidy
      exact ⟨f,leaked_enter h₁ hd hi hj hp hg (leaked_tableReady h hd hi hready hf)⟩
  | fill _ hg hm ih =>
    obtain ⟨f,hf⟩ := ih ht
    exact ⟨f,hf.before,hf.used,fun r hr => hf.lost r (((untouched_dataFrame hg.data hm hd).holds r f).mp hr)⟩

omit hb₀ in
theorem LoadRun.surplus_eq {vs : List ℕ} {s : Machine} (hr : LoadRun live d s₀ vs s) :
    surplus s.pmm = surplus s₀.pmm := by
  induction hr with
  | start => rfl
  | table hr hi hready ih =>
    rcases holds_tableReady (hr.separated h₀ hd) hd hi hready with rfl | ⟨t,ht,_⟩
    · exact ih
    · exact ht.surplus_eq.trans ih
  | @page vs s s' v hr hv hm ih =>
    obtain ⟨s₁,g,q,hready,hg,rfl⟩ := hm
    refine hg.surplus_eq.trans ?_
    rcases holds_tableReady (hr.separated h₀ hd) hd (by omega) hready with rfl | ⟨t,ht,_⟩
    · exact ih
    · exact ht.surplus_eq.trans ih
  | fill _ _ _ ih => exact ih

end Run

/-! ## Destroying the directory -/

/-- The allocator is as it was: bitmap and counter. -/
def Restored (p₀ p : Pmm) : Prop := p.bitmap = p₀.bitmap ∧ p.free = p₀.free

section Destroy
variable {K : KernelLayout} {s : Machine} {live : List ℕ} {d : ℕ} {p₀ : Pmm}

theorem restored_destroyPd (h : Separated K s live) (hd : d ∈ live) {vs : List ℕ} (hb : Balanced p₀ d vs s)
    (hsound : Sound p₀) (hsur : surplus s.pmm = surplus p₀) {m' : Mem} (hu : Untouched s.mem m' d) :
    Restored p₀ (pagingDestroyPd (4096*d) ⟨m',s.pmm⟩).pmm := by
  have hrel := releases_destroyPd d ⟨m',s.pmm⟩
  have hlow : ∀ f ∈ {f | ∃ r, Holds m' d r f}, lowFrames ≤ f := by
    rintro f ⟨r,hf⟩
    exact (h.owned d hd r f ((hu.holds r f).mp hf)).1
  obtain ⟨hsound',hsur'⟩ := hrel.counters h.sound hlow
  have hbits : ∀ f, pmmIsUsed (pagingDestroyPd (4096*d) ⟨m',s.pmm⟩).pmm f = pmmIsUsed p₀ f := by
    intro f
    rw [Bool.eq_iff_iff,hrel.bits]
    dsimp only
    rw [hb.bits]
    constructor
    · rintro ⟨hf | ⟨r,hf⟩,hnot⟩
      · exact hf
      · exact absurd ⟨(h.owned d hd r f hf).2.1,r,(hu.holds r f).mpr hf⟩ hnot
    · intro hf
      refine ⟨Or.inl hf,?_⟩
      rintro ⟨_,r,hr⟩
      have := hb.fresh r f ((hu.holds r f).mp hr)
      rw [hf] at this
      cases this
  exact ⟨bitmap_ext hbits,free_eq_of_surplus hsound'.counted hsound.counted hbits (hsur'.trans hsur)⟩

theorem not_restored_destroyPd {g : ℕ} (hl : Leaked p₀ d s g) :
    ¬ Restored p₀ (pagingDestroyPd (4096*d) s).pmm := by
  rintro ⟨hb,_⟩
  have hused : pmmIsUsed (pagingDestroyPd (4096*d) s).pmm g = true := by
    refine ((releases_destroyPd d s).bits g).mpr ⟨hl.used,?_⟩
    rintro ⟨_,r,hr⟩
    exact hl.lost r hr
  have hbefore := hl.before
  simp only [pmmIsUsed,hb] at hused hbefore
  rw [hbefore] at hused
  cases hused

/-- A directory just created is balanced. -/
theorem balanced_freshDir {m : Mem} {q : Pmm} (ht : Takes p₀ q d) :
    Balanced p₀ d [] ⟨freshDir K m d,q⟩ := by
  constructor
  · intro f
    simp only [holds_freshDir,ht.bits,Bool.or_eq_true,decide_eq_true_eq]
    constructor
    · rintro (rfl | hf)
      · exact Or.inr ⟨.dir,rfl,rfl⟩
      · exact Or.inl hf
    · rintro (hf | ⟨_,_,rfl⟩)
      · exact Or.inr hf
      · exact Or.inl rfl
  · intro r f hf
    rw [((holds_freshDir K m d r f).mp hf).2]
    exact ht.unused
  · intro i j f hf
    cases ((holds_freshDir K m d _ f).mp hf).1

/-- Whatever was loaded into a new directory, destroying it restores the
allocator exactly when the load was tidy. -/
theorem destroyPd_restored_iff (h : Separated K s live) {q : Pmm} (ht : Takes s.pmm q d) {vs : List ℕ}
    {s' : Machine} (hr : LoadRun (d :: live) d ⟨freshDir K s.mem d,q⟩ vs s') :
    (∀ m', Untouched s'.mem m' d → Restored s.pmm (pagingDestroyPd (4096*d) ⟨m',s'.pmm⟩).pmm) ↔ Tidy vs := by
  have h₁ := h.freshDir ht
  have hd : d ∈ d :: live := List.mem_cons_self
  constructor
  · intro hall
    by_contra hbad
    obtain ⟨g,hg⟩ := LoadRun.leaked h₁ hd (balanced_freshDir ht) hr hbad
    exact not_restored_destroyPd hg (hall s'.mem ⟨SameFrame.refl _ _,fun _ _ _ => SameFrame.refl _ _⟩)
  · intro htidy m' hu
    have hsur : surplus s'.pmm = surplus s.pmm := (LoadRun.surplus_eq h₁ hd hr).trans ht.surplus_eq
    exact restored_destroyPd (hr.separated h₁ hd) hd (LoadRun.balanced h₁ hd (balanced_freshDir ht) hr htidy)
      h.sound hsur hu

end Destroy

end VesperOS.FrameBalance
