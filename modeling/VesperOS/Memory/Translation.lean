import VesperOS.Memory.AddressSpaces

/-! # Translation of virtual pages

`Maps m d v g` says that the directory in frame `d` translates page `v` to frame
`g` with the user flags set, through whatever table its PDE names (a kernel
table for the first 8 MB). Each primitive change of memory keeps every
translation except that of the page it enters.
-/
namespace VesperOS.Translation
open ByteMemory FrameAllocator Paging AddressSpaces

/-- The table frame that a PDE names. -/
def tableFrame (m : Mem) (d i : ℕ) : ℕ := entry m (4096*d) i/4096

/-- The page-table entry of a virtual address. -/
def pteOf (m : Mem) (d v : ℕ) : ℕ := entry m (4096*tableFrame m d (v/4194304)) (v/4096 % 1024)

structure Maps (m : Mem) (d v g : ℕ) : Prop where
  pde : isPresent (entry m (4096*d) (v/4194304)) = true
  pte : pteOf m d v = 4096*g + 7

theorem Maps.physOfVirt {m : Mem} {d v g : ℕ} (h : Maps m d v g) : physOfVirt m (4096*d) v = 4096*g := by
  have hpte := h.pte
  simp only [pteOf,tableFrame] at hpte
  simp only [Paging.physOfVirt,h.pde,if_true,pageBase_eq,hpte,isPresent_user,div_user]

theorem Maps.unique {m : Mem} {d v g g' : ℕ} (h : Maps m d v g) (h' : Maps m d v g') : g = g' := by
  have := h.pte.symm.trans h'.pte
  omega

/-- Two virtual addresses lie on the same page exactly when their numbers agree. -/
theorem samePage_iff {v w : ℕ} :
    (v/4194304 = w/4194304 ∧ v/4096 % 1024 = w/4096 % 1024) ↔ v/4096 = w/4096 := by
  constructor
  · rintro ⟨h1,h2⟩
    omega
  · intro h
    omega

/-- A frame that no live directory reads its structure from. -/
structure DataFrame (s : Machine) (live : List ℕ) (g : ℕ) : Prop where
  low : lowFrames ≤ g
  dir : g ∉ live
  table : ∀ d ∈ live, ∀ i t, Holds s.mem d (.table i) t → t ≠ g

/-- A frame that a live directory maps as a page is one. -/
theorem dataFrame_page {K : KernelLayout} {s : Machine} {live : List ℕ} (h : Separated K s live) {d i j g : ℕ}
    (hd : d ∈ live) (hg : Holds s.mem d (.page i j) g) : DataFrame s live g := by
  refine ⟨(h.owned d hd _ _ hg).1,fun hm => ?_,fun d' hd' i' t ht he => ?_⟩
  · have hdir : Holds s.mem g .dir g := rfl
    cases (h.unique hd hm hg hdir).2
  · rw [← he] at hg
    cases (h.unique hd hd' hg ht).2

theorem tableFrame_congr {m m' : Mem} {d i : ℕ} (h : SameFrame m m' d) (hi : i < 1024) :
    tableFrame m' d i = tableFrame m d i := by
  rw [tableFrame,tableFrame,h.entry hi]

/-- A translation read from unchanged frames is unchanged. -/
theorem maps_congr {m m' : Mem} {d v g : ℕ} (hv : v < 2^32) (hm : Maps m d v g)
    (h1 : SameFrame m m' d) (h2 : SameFrame m m' (tableFrame m d (v/4194304))) : Maps m' d v g := by
  have hi : v/4194304 < 1024 := by omega
  refine ⟨?_,?_⟩
  · rw [h1.entry hi]
    exact hm.pde
  · rw [pteOf,tableFrame_congr h1 hi]
    exact (h2.entry (by omega)).trans hm.pte

/-- A write inside a data frame misses every directory and every table. -/
theorem untouched_dataFrame {s : Machine} {live : List ℕ} {g : ℕ} (hg : DataFrame s live g) {m' : Mem}
    (hm : ∀ k, k ≠ g → SameFrame s.mem m' k) {d : ℕ} (hd : d ∈ live) : Untouched s.mem m' d :=
  ⟨hm d fun he => hg.dir (he ▸ hd),fun i t ht => hm t (hg.table d hd i t ht)⟩

section Steps
variable {K : KernelLayout} {s : Machine} {live : List ℕ} (h : Separated K s live)
include h

/-- Every present PDE of a directory names a different frame, none of them the
directory itself. -/
theorem tableFrame_inj {d i i' : ℕ} (hd : d ∈ live) (hi : i < 1024) (hi' : i' < 1024)
    (hp : isPresent (entry s.mem (4096*d) i) = true) (hp' : isPresent (entry s.mem (4096*d) i') = true)
    (he : tableFrame s.mem d i = tableFrame s.mem d i') : i = i' := by
  have hlow := K.tables_low
  simp only [tableFrame] at he
  rcases h.present_cases hd hi hp with hu | ⟨h2,e⟩ <;>
    rcases h.present_cases hd hi' hp' with hu' | ⟨h2',e'⟩
  · rw [he] at hu
    have hr := (h.unique hd hd hu hu').2
    injection hr
  · rw [he,e'] at hu
    exact absurd rfl (h.not_low hd hu (by omega))
  · rw [← he,e] at hu'
    exact absurd rfl (h.not_low hd hu' (by omega))
  · omega

theorem tableFrame_ne_dir {d i : ℕ} (hd : d ∈ live) (hi : i < 1024)
    (hp : isPresent (entry s.mem (4096*d) i) = true) : tableFrame s.mem d i ≠ d := by
  rcases h.present_cases hd hi hp with hu | ⟨h2,e⟩
  · exact h.table_ne_dir hd hd hu
  · rw [tableFrame,e]
    exact (h.not_low hd (r := .dir) rfl (by have := K.tables_low; omega)).symm

theorem tableFrame_used {d i : ℕ} (hd : d ∈ live) (hi : i < 1024)
    (hp : isPresent (entry s.mem (4096*d) i) = true) : pmmIsUsed s.pmm (tableFrame s.mem d i) = true := by
  rcases h.present_cases hd hi hp with hu | ⟨h2,e⟩
  · exact h.used hd hu
  · rw [tableFrame,e]
    exact h.sound.low _ (by have := K.tables_low; omega)

theorem maps_tableReady {d v g i : ℕ} {s₁ : Machine} (hd : d ∈ live) (hv : v < 2^32) (hi : i < 1024)
    (hr : TableReady d i s s₁) (hm : Maps s.mem d v g) : Maps s₁.mem d v g := by
  rcases hr with ⟨_,rfl⟩ | ⟨hp,_,t,q,ht,rfl⟩
  · exact hm
  · have hvi : v/4194304 < 1024 := by omega
    have hdt : d ≠ t := ht.ne (h.dir_used hd)
    have hne : i ≠ v/4194304 := by
      rintro rfl
      rw [hm.pde] at hp
      cases hp
    have he : entry (linkTable s.mem d i t) (4096*d) (v/4194304) = entry s.mem (4096*d) (v/4194304) :=
      entry_linkTable_of_ne s.mem hdt hvi hne
    refine ⟨?_,?_⟩
    · rw [he]
      exact hm.pde
    · rw [pteOf,tableFrame,he]
      refine (SameFrame.entry ?_ (by omega)).trans hm.pte
      exact sameFrame_linkTable _ hi (tableFrame_ne_dir h hd hvi hm.pde)
        (ht.ne (tableFrame_used h hd hvi hm.pde))

/-- Entering a frame for page `w` leaves the translation of every other page. -/
theorem maps_enter {d v w g g' : ℕ} (hd : d ∈ live) (hv : v < 2^32) (hw : w < 2^32)
    (hp : isPresent (entry s.mem (4096*d) (w/4194304)) = true) (hne : v/4096 ≠ w/4096)
    (hm : Maps s.mem d v g) :
    Maps (linkPage s.mem (tableFrame s.mem d (w/4194304)) (w/4096 % 1024) g') d v g := by
  have hvi : v/4194304 < 1024 := by omega
  have hwi : w/4194304 < 1024 := by omega
  have hdir : SameFrame s.mem (linkPage s.mem (tableFrame s.mem d (w/4194304)) (w/4096 % 1024) g') d :=
    sameFrame_linkPage _ (by omega) (tableFrame_ne_dir h hd hwi hp).symm
  by_cases hi : v/4194304 = w/4194304
  · refine ⟨?_,?_⟩
    · rw [hdir.entry hvi]
      exact hm.pde
    · rw [pteOf,tableFrame_congr hdir hvi]
      refine Eq.trans ?_ hm.pte
      rw [pteOf,hi]
      exact entry_linkPage_of_ne s.mem (fun hj => hne (samePage_iff.mp ⟨hi,hj.symm⟩))
  · refine maps_congr hv hm hdir (sameFrame_linkPage _ (by omega) ?_)
    exact fun he => hi (tableFrame_inj h hd hvi hwi hm.pde hp he)

/-- The page entered is mapped to the frame taken. -/
theorem maps_entered {d w g : ℕ} {q : Pmm} (hd : d ∈ live) (hw : w < 2^32)
    (hp : isPresent (entry s.mem (4096*d) (w/4194304)) = true) (hg : Takes s.pmm q g) :
    Maps (linkPage s.mem (tableFrame s.mem d (w/4194304)) (w/4096 % 1024) g) d w g := by
  have hwi : w/4194304 < 1024 := by omega
  have hdir : SameFrame s.mem (linkPage s.mem (tableFrame s.mem d (w/4194304)) (w/4096 % 1024) g) d :=
    sameFrame_linkPage _ (by omega) (tableFrame_ne_dir h hd hwi hp).symm
  refine ⟨?_,?_⟩
  · rw [hdir.entry hwi]
    exact hp
  · rw [pteOf,tableFrame_congr hdir hwi]
    exact entry_linkPage_same s.mem hg.lt

/-- Nor does it change a translation. -/
theorem maps_dataFrame {g : ℕ} (hg : DataFrame s live g) {m' : Mem} (hm : ∀ k, k ≠ g → SameFrame s.mem m' k)
    {d v f : ℕ} (hd : d ∈ live) (hv : v < 2^32) (hmap : Maps s.mem d v f) : Maps m' d v f := by
  refine maps_congr hv hmap (untouched_dataFrame hg hm hd).1 (hm _ ?_)
  rcases h.present_cases hd (by omega) hmap.pde with hu | ⟨h2,e⟩
  · exact hg.table d hd _ _ hu
  · rw [tableFrame,e]
    have h1 := K.tables_low
    have h3 := hg.low
    omega

/-! ## A whole request -/

/-- Tables are neither lost nor gained when a frame is entered. -/
theorem table_enter {d i j g : ℕ} (hd : d ∈ live) (hi : i < 1024) (hj : j < 1024)
    (hp : isPresent (entry s.mem (4096*d) i) = true) {d' k t : ℕ} (hd' : d' ∈ live) :
    Holds (linkPage s.mem (tableFrame s.mem d i) j g) d' (.table k) t ↔ Holds s.mem d' (.table k) t := by
  rcases h.present_cases hd hi hp with hu | ⟨h2,e⟩
  · by_cases hne : d' = d
    · subst hne
      exact h.table_linkPage hd hu hj k t
    · exact (h.untouched_linkPage hd hd' hne hu hj).holds _ _
  · rw [tableFrame,e]
    exact (h.untouched_kernelTable hd' hj h2).holds _ _

theorem dataFrame_tableReady {d i f : ℕ} {s₁ : Machine} (hd : d ∈ live) (hi : i < 1024)
    (hr : TableReady d i s s₁) (hu : pmmIsUsed s.pmm f = true) (hf : DataFrame s live f) :
    pmmIsUsed s₁.pmm f = true ∧ DataFrame s₁ live f := by
  rcases hr with ⟨_,rfl⟩ | ⟨hp,hi2,t,q,ht,rfl⟩
  · exact ⟨hu,hf⟩
  · refine ⟨ht.mono hu,hf.low,hf.dir,fun d' hd' k t' ht' => ?_⟩
    rcases (h.holds_linkTable hd hi2 hi hp ht hd' _ _).mp ht' with h' | ⟨_,_,rfl⟩
    · exact hf.table d' hd' k t' h'
    · exact (ht.ne hu).symm

/-- Everything later proofs need to know about one mapped page. -/
structure PageEffect (s : Machine) (live : List ℕ) (d v g : ℕ) (s' : Machine) : Prop where
  maps : Maps s'.mem d v g
  fresh : pmmIsUsed s.pmm g = false
  used : pmmIsUsed s'.pmm g = true
  data : DataFrame s' live g
  mono : ∀ f, pmmIsUsed s.pmm f = true → pmmIsUsed s'.pmm f = true
  keeps : ∀ w f, w < 2^32 → w/4096 ≠ v/4096 → Maps s.mem d w f → Maps s'.mem d w f
  keepsData : ∀ f, pmmIsUsed s.pmm f = true → DataFrame s live f → DataFrame s' live f

omit h in
theorem tableReady_mono {d i f : ℕ} {s₁ : Machine} (hr : TableReady d i s s₁)
    (hu : pmmIsUsed s.pmm f = true) : pmmIsUsed s₁.pmm f = true := by
  rcases hr with ⟨_,rfl⟩ | ⟨_,_,t,q,ht,rfl⟩
  · exact hu
  · exact ht.mono hu

theorem pageMapped_effect {d v : ℕ} {s' : Machine} (hd : d ∈ live) (hv : v < 2^32)
    (hm : PageMapped d v s s') : ∃ g, PageEffect s live d v g s' := by
  obtain ⟨s₁,g,q,hr,hg,rfl⟩ := hm
  have hi : v/4194304 < 1024 := by omega
  have hj : v/4096 % 1024 < 1024 := by omega
  obtain ⟨h₁,hp⟩ := h.tableReady hd hi hr
  have hkeep : ∀ f, pmmIsUsed s₁.pmm f = true → DataFrame s₁ live f →
      DataFrame ⟨linkPage s₁.mem (tableFrame s₁.mem d (v/4194304)) (v/4096 % 1024) g,q⟩ live f := by
    intro f _ hf
    exact ⟨hf.low,hf.dir,fun d' hd' k t ht => hf.table d' hd' k t ((table_enter h₁ hd hi hj hp hd').mp ht)⟩
  refine ⟨g,maps_entered h₁ hd hv hp hg,?_,hg.used,⟨hg.low,?_,?_⟩,?_,?_,?_⟩
  · cases hu : pmmIsUsed s.pmm g with
    | false => rfl
    | true =>
      have := tableReady_mono hr hu
      rw [hg.unused] at this
      cases this
  · exact fun hgl => hg.ne (h₁.dir_used hgl) rfl
  · exact fun d' hd' k t ht => hg.ne (h₁.used hd' ((table_enter h₁ hd hi hj hp hd').mp ht))
  · exact fun f hf => hg.mono (tableReady_mono hr hf)
  · exact fun w f hw hne hmw => maps_enter h₁ hd hw hv hp hne (maps_tableReady h hd hw hi hr hmw)
  · intro f hf hdf
    obtain ⟨hu₁,hdf₁⟩ := dataFrame_tableReady h hd hi hr hf hdf
    exact hkeep f hu₁ hdf₁

end Steps

/-- The frame a page was given by a run that started in `s` and ended in `s'`. -/
structure FreshData (s : Machine) (live : List ℕ) (d v g : ℕ) (s' : Machine) : Prop where
  maps : Maps s'.mem d v g
  fresh : pmmIsUsed s.pmm g = false
  used : pmmIsUsed s'.pmm g = true
  data : DataFrame s' live g

section Run
variable {K : KernelLayout} {live : List ℕ} {d : ℕ}

/-- What a run keeps: used frames, the translations of pages it does not name,
and data frames. -/
theorem PagesMapped.keeps {vs : List ℕ} {s s' : Machine} (hm : PagesMapped d vs s s')
    (h : Separated K s live) (hd : d ∈ live) (hvs : ∀ v ∈ vs, v < 2^32) :
    (∀ f, pmmIsUsed s.pmm f = true → pmmIsUsed s'.pmm f = true) ∧
    (∀ w f, w < 2^32 → (∀ v ∈ vs, w/4096 ≠ v/4096) → Maps s.mem d w f → Maps s'.mem d w f) ∧
    ∀ f, pmmIsUsed s.pmm f = true → DataFrame s live f → DataFrame s' live f := by
  induction hm with
  | nil => exact ⟨fun _ h => h,fun _ _ _ _ h => h,fun _ _ h => h⟩
  | @cons v vs s s₁ s' hv _ ih =>
    have hvlt := hvs v List.mem_cons_self
    obtain ⟨g,e⟩ := pageMapped_effect h hd hvlt hv
    obtain ⟨h1,h2,h3⟩ := ih (h.pageMapped hd hvlt hv) fun w hw => hvs w (List.mem_cons_of_mem _ hw)
    refine ⟨fun f hf => h1 f (e.mono f hf),fun w f hw hne hmw => ?_,fun f hf hdf => ?_⟩
    · exact h2 w f hw (fun x hx => hne x (List.mem_cons_of_mem _ hx))
        (e.keeps w f hw (hne v List.mem_cons_self) hmw)
    · exact h3 f (e.mono f hf) (e.keepsData f hf hdf)

/-- Every page of a request without repetitions ends on a frame of its own that
was free before the request. -/
theorem PagesMapped.fresh {vs : List ℕ} {s s' : Machine} (hm : PagesMapped d vs s s')
    (h : Separated K s live) (hd : d ∈ live) (hvs : ∀ v ∈ vs, v < 2^32)
    (hnd : vs.Pairwise (fun v w => v/4096 ≠ w/4096)) :
    ∀ v ∈ vs, ∃ g, FreshData s live d v g s' := by
  induction hm with
  | nil => simp
  | @cons v vs s s₁ s' hv hrest ih =>
    have hvlt := hvs v List.mem_cons_self
    have hvs' := fun w hw => hvs w (List.mem_cons_of_mem v hw)
    obtain ⟨hhead,htail⟩ := List.pairwise_cons.mp hnd
    obtain ⟨g,e⟩ := pageMapped_effect h hd hvlt hv
    have h₁ := h.pageMapped hd hvlt hv
    obtain ⟨k1,k2,k3⟩ := PagesMapped.keeps hrest h₁ hd hvs'
    intro w hw
    rcases List.mem_cons.mp hw with rfl | hw
    · exact ⟨g,k2 w g hvlt hhead e.maps,e.fresh,k1 g e.used,k3 g e.used e.data⟩
    · obtain ⟨g',e'⟩ := ih h₁ hvs' htail w hw
      refine ⟨g',e'.maps,?_,e'.used,e'.data⟩
      cases hu : pmmIsUsed s.pmm g' with
      | false => rfl
      | true =>
        have := e.mono g' hu
        rw [e'.fresh] at this
        cases this

end Run

end VesperOS.Translation
