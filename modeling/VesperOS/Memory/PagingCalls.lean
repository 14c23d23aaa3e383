import VesperOS.Memory.SpaceLifecycle
import VesperOS.Memory.Translation

/-! # What the calls of `paging.c` promise

`paging_destroy_pd` on any memory and any bitmap: the nested loops compute a set, although
frames may be named twice or be free already. `paging_alloc_user_pages` on the directories
of a run: the requested pages are mapped to frames that were free, and no other page of any
directory is translated differently.
-/
namespace VesperOS.PagingCalls
open ByteMemory FrameAllocator Paging AddressSpaces Translation SpaceLifecycle

/-! ## `paging_destroy_pd` -/

/-- The counter and the bitmap move together, in 32-bit arithmetic. -/
structure InStep (p p' : Pmm) : Prop where
  count : p'.free + freeCount p ≡ p.free + freeCount p' [MOD 2^32]
  word : p.free < 2^32 → p'.free < 2^32

theorem InStep.refl (p : Pmm) : InStep p p := ⟨Nat.ModEq.refl _,id⟩

theorem InStep.trans {p q r : Pmm} (h : InStep p q) (h' : InStep q r) : InStep p r := by
  refine ⟨?_,fun hp => h'.word (h.word hp)⟩
  have h1 := h.count
  have h2 := h'.count
  unfold Nat.ModEq at *
  omega

theorem inStep_freeFrame (p : Pmm) (a : ℕ) : InStep p (pmmFreeFrame p a) := by
  unfold pmmFreeFrame
  dsimp only
  split
  · exact InStep.refl p
  · split
    · rename_i hf hu
      refine ⟨?_,fun _ => Nat.mod_lt _ (by decide)⟩
      rw [freeCount_releaseFrame (by omega) hu]
      change ((p.free+1) % 2^32 + freeCount p) % 2^32 = _
      omega
    · exact InStep.refl p

theorem inStep_foldl {ι : Type*} {step : Pmm → ι → Pmm} (hstep : ∀ p j, InStep p (step p j)) (L : List ι)
    (p : Pmm) : InStep p (L.foldl step p) := by
  induction L generalizing p with
  | nil => exact InStep.refl p
  | cons j L ih => exact (hstep p j).trans (ih (step p j))

theorem inStep_freeTableFrames (m : Mem) (pt : ℕ) (p : Pmm) : InStep p (freeTableFrames m pt p) := by
  refine inStep_foldl (fun p j => ?_) _ p
  split
  · exact inStep_freeFrame p _
  · exact InStep.refl p

theorem inStep_destroyPd (pd : ℕ) (s : Machine) : InStep s.pmm (pagingDestroyPd pd s).pmm := by
  refine InStep.trans (inStep_foldl (fun p i => ?_) (List.range' 2 1022) s.pmm) (inStep_freeFrame _ pd)
  split
  · exact (inStep_freeTableFrames s.mem _ p).trans (inStep_freeFrame _ _)
  · exact InStep.refl p

/-- The frames given back, as far as the bitmap has them. -/
def ownedFrames (m : Mem) (pd : ℕ) : Finset ℕ := (Finset.range totalFrames).filter (Visits m pd)

theorem free_destroyPd (pd : ℕ) (s : Machine) (f : ℕ) :
    pmmIsUsed (pagingDestroyPd pd s).pmm f = false ↔ pmmIsUsed s.pmm f = false ∨ f ∈ ownedFrames s.mem pd := by
  have h := (releases_visits pd s).bits f
  rw [← not_iff_not,Bool.not_eq_false,h,not_or,Bool.not_eq_false]
  simp [ownedFrames]

/-- Frames that were used and are free afterwards are counted once each. -/
theorem freeCount_destroyPd (pd : ℕ) (s : Machine) : freeCount (pagingDestroyPd pd s).pmm =
    freeCount s.pmm + ((ownedFrames s.mem pd).filter (fun f => pmmIsUsed s.pmm f = true)).card := by
  have hset : freeSet (pagingDestroyPd pd s).pmm =
      freeSet s.pmm ∪ (ownedFrames s.mem pd).filter (fun f => pmmIsUsed s.pmm f = true) := by
    ext f
    rw [mem_freeSet,free_destroyPd,Finset.mem_union,mem_freeSet,Finset.mem_filter]
    cases pmmIsUsed s.pmm f with
    | false => simp
    | true => simp [ownedFrames]
  rw [freeCount,hset,Finset.card_union_of_disjoint,freeCount]
  rw [Finset.disjoint_left]
  intro f hf hf'
  rw [mem_freeSet] at hf
  rw [Finset.mem_filter,hf.2] at hf'
  cases hf'.2

/-- On every memory and every bitmap: the frames of the set become free and no others do, the
32-bit counter grows by how many of them were used, and memory keeps its contents. -/
theorem destroyPd_exact (m : Mem) (p : Pmm) (pd : ℕ) :
    (∀ f, pmmIsUsed (pagingDestroyPd pd ⟨m,p⟩).pmm f = false ↔
      pmmIsUsed p f = false ∨ f ∈ ownedFrames m pd) ∧
    (pagingDestroyPd pd ⟨m,p⟩).pmm.free ≡
      p.free + ((ownedFrames m pd).filter (fun f => pmmIsUsed p f = true)).card [MOD 2^32] ∧
    (p.free + ((ownedFrames m pd).filter (fun f => pmmIsUsed p f = true)).card < 2^32 →
      (pagingDestroyPd pd ⟨m,p⟩).pmm.free =
        p.free + ((ownedFrames m pd).filter (fun f => pmmIsUsed p f = true)).card) ∧
    (pagingDestroyPd pd ⟨m,p⟩).mem = m := by
  have hstep := inStep_destroyPd pd ⟨m,p⟩
  have hgrown := hstep.count
  rw [freeCount_destroyPd] at hgrown
  have hmod : (pagingDestroyPd pd ⟨m,p⟩).pmm.free ≡
      p.free + ((ownedFrames m pd).filter (fun f => pmmIsUsed p f = true)).card [MOD 2^32] := by
    unfold Nat.ModEq at *
    dsimp only at hgrown
    omega
  refine ⟨free_destroyPd pd ⟨m,p⟩,hmod,?_,rfl⟩
  intro hlt
  have hword := hstep.word (by dsimp only; omega)
  exact Nat.ModEq.eq_of_lt_of_lt hmod hword hlt

/-! ## Translations that a step leaves alone -/

/-- A translation, or its absence, is read from the directory and at most one table. -/
theorem physOfVirt_congr {m m' : Mem} {d w : ℕ} (hw : w < 2^32) (h1 : SameFrame m m' d)
    (h2 : isPresent (entry m (4096*d) (w/4194304)) = true → SameFrame m m' (tableFrame m d (w/4194304))) :
    physOfVirt m' (4096*d) w = physOfVirt m (4096*d) w := by
  have hi : w/4194304 < 1024 := by omega
  have hj : w/4096 % 1024 < 1024 := by omega
  unfold physOfVirt
  dsimp only
  rw [h1.entry hi]
  cases hp : isPresent (entry m (4096*d) (w/4194304)) with
  | false => rfl
  | true =>
    have ht := (h2 hp).entry hj
    unfold tableFrame at ht
    rw [pageBase_eq,ht]

theorem physOfVirt_absent {m : Mem} {d w : ℕ} (h : isPresent (entry m (4096*d) (w/4194304)) = false) :
    physOfVirt m (4096*d) w = 0 := by
  unfold physOfVirt
  dsimp only
  rw [h]
  rfl

section Steps
variable {K : KernelLayout} {s : Machine} {live : List ℕ} (h : Separated K s live)
include h

/-- A table named by a live directory is no live directory. -/
theorem tableFrame_ne_live {d d' i : ℕ} (hd : d ∈ live) (hd' : d' ∈ live) (hi : i < 1024)
    (hp : isPresent (entry s.mem (4096*d') i) = true) : tableFrame s.mem d' i ≠ d := by
  rcases h.present_cases hd' hi hp with hu | ⟨_,he⟩
  · exact h.table_ne_dir hd' hd hu
  · have hlow := K.tables_low
    unfold tableFrame
    rw [he]
    exact (h.not_low hd (r := .dir) rfl (by omega)).symm

theorem physOfVirt_linkTable {d d' i t w : ℕ} {q : Pmm} (hd : d ∈ live) (hd' : d' ∈ live) (hi : i < 1024)
    (hp : isPresent (entry s.mem (4096*d) i) = false) (ht : Takes s.pmm q t) (hw : w < 2^32) :
    physOfVirt (linkTable s.mem d i t) (4096*d') w = physOfVirt s.mem (4096*d') w := by
  have hwi : w/4194304 < 1024 := by omega
  have htable : isPresent (entry s.mem (4096*d') (w/4194304)) = true →
      SameFrame s.mem (linkTable s.mem d i t) (tableFrame s.mem d' (w/4194304)) := by
    intro hp'
    exact sameFrame_linkTable _ hi (tableFrame_ne_live h hd hd' hwi hp') (ht.ne (tableFrame_used h hd' hwi hp'))
  by_cases hne : d' = d
  · subst hne
    have hdt : d' ≠ t := ht.ne (h.dir_used hd)
    by_cases hwi' : w/4194304 = i
    · -- the region had no table and has an empty one now
      have he := entry_linkTable_same s.mem (d := d') (i := i) ht.lt
      have hbefore : physOfVirt s.mem (4096*d') w = 0 := physOfVirt_absent (by rw [hwi',hp])
      rw [hbefore]
      unfold physOfVirt
      dsimp only
      rw [hwi',he,pageBase_eq,div_user,entry_linkTable_fresh s.mem hdt hi (by omega)]
      simp [isPresent_iff]
    · have he := entry_linkTable_of_ne s.mem hdt hwi (Ne.symm hwi')
      unfold physOfVirt
      dsimp only
      rw [he]
      cases hp' : isPresent (entry s.mem (4096*d') (w/4194304)) with
      | false => rfl
      | true =>
        have hsame := (htable hp').entry (i := w/4096 % 1024) (by omega)
        unfold tableFrame at hsame
        rw [pageBase_eq,hsame]
  · exact physOfVirt_congr hw (sameFrame_linkTable _ hi hne (ht.ne (h.dir_used hd'))) htable

theorem physOfVirt_tableReady {d d' i w : ℕ} {s₁ : Machine} (hd : d ∈ live) (hd' : d' ∈ live) (hi : i < 1024)
    (hr : TableReady d i s s₁) (hw : w < 2^32) :
    physOfVirt s₁.mem (4096*d') w = physOfVirt s.mem (4096*d') w := by
  rcases hr with ⟨_,rfl⟩ | ⟨hp,_,t,q,ht,rfl⟩
  · rfl
  · exact physOfVirt_linkTable h hd hd' hi hp ht hw

/-- A user page entered in its own table leaves every other page of every directory. -/
theorem physOfVirt_enter {d d' v w g : ℕ} (hd : d ∈ live) (hd' : d' ∈ live) (hv : v < 2^32) (hw : w < 2^32)
    (hv2 : 2 ≤ v/4194304) (hp : isPresent (entry s.mem (4096*d) (v/4194304)) = true)
    (hne : d' = d → w/4096 ≠ v/4096) :
    physOfVirt (linkPage s.mem (tableFrame s.mem d (v/4194304)) (v/4096 % 1024) g) (4096*d') w =
      physOfVirt s.mem (4096*d') w := by
  have hvi : v/4194304 < 1024 := by omega
  have hwi : w/4194304 < 1024 := by omega
  have hj : v/4096 % 1024 < 1024 := by omega
  have hu : Holds s.mem d (.table (v/4194304)) (tableFrame s.mem d (v/4194304)) := ⟨hv2,hvi,hp,rfl⟩
  have hdir : SameFrame s.mem (linkPage s.mem (tableFrame s.mem d (v/4194304)) (v/4096 % 1024) g) d' :=
    sameFrame_linkPage _ hj (h.table_ne_dir hd hd' hu).symm
  by_cases hsame : isPresent (entry s.mem (4096*d') (w/4194304)) = true ∧
      tableFrame s.mem d' (w/4194304) = tableFrame s.mem d (v/4194304)
  · obtain ⟨hp',he⟩ := hsame
    -- the same table: then it is the same directory and the same region
    rcases h.present_cases hd' hwi hp' with hu' | ⟨_,hk⟩
    · change Holds s.mem d' (.table (w/4194304)) (tableFrame s.mem d' (w/4194304)) at hu'
      rw [he] at hu'
      obtain ⟨rfl,hrole⟩ := h.unique hd' hd hu' hu
      injection hrole with hregion
      have hpage : v/4096 % 1024 ≠ w/4096 % 1024 := by
        intro hj'
        exact hne rfl (samePage_iff.mp ⟨hregion,hj'.symm⟩)
      unfold tableFrame at he
      unfold physOfVirt
      dsimp only
      rw [hdir.entry hwi,pageBase_eq,he]
      unfold tableFrame
      rw [entry_linkPage_of_ne s.mem hpage]
    · have hlow := K.tables_low
      unfold tableFrame at he hu
      rw [← he,hk] at hu
      exact absurd rfl (h.not_low hd hu (by omega))
  · refine physOfVirt_congr hw hdir fun hp' => sameFrame_linkPage _ hj ?_
    exact fun he => hsame ⟨hp',he⟩

theorem pageMapped_others {d d' v w : ℕ} {s' : Machine} (hd : d ∈ live) (hd' : d' ∈ live) (hv : v < 2^32)
    (hv2 : 2 ≤ v/4194304) (hw : w < 2^32) (hm : PageMapped d v s s') (hne : d' = d → w/4096 ≠ v/4096) :
    physOfVirt s'.mem (4096*d') w = physOfVirt s.mem (4096*d') w := by
  obtain ⟨s₁,g,q,hr,_,rfl⟩ := hm
  obtain ⟨h₁,hp⟩ := h.tableReady hd (by omega) hr
  exact (physOfVirt_enter h₁ hd hd' hv hw hv2 hp hne).trans (physOfVirt_tableReady h hd hd' (by omega) hr hw)

end Steps

theorem pagesMapped_others {K : KernelLayout} {live : List ℕ} {d d' w : ℕ} {vs : List ℕ} {s s' : Machine}
    (hm : PagesMapped d vs s s') (h : Separated K s live) (hd : d ∈ live) (hd' : d' ∈ live)
    (hvs : ∀ v ∈ vs, v < 2^32 ∧ 2 ≤ v/4194304) (hw : w < 2^32) (hne : d' = d → ∀ v ∈ vs, w/4096 ≠ v/4096) :
    physOfVirt s'.mem (4096*d') w = physOfVirt s.mem (4096*d') w := by
  induction hm with
  | nil => rfl
  | @cons v vs s s₁ s' hv _ ih =>
    obtain ⟨hlt,hv2⟩ := hvs v List.mem_cons_self
    have hrest := ih (h.pageMapped hd hlt hv) (fun x hx => hvs x (List.mem_cons_of_mem _ hx))
      fun he x hx => hne he x (List.mem_cons_of_mem _ hx)
    exact hrest.trans (pageMapped_others h hd hd' hlt hv2 hw hv fun he => hne he v List.mem_cons_self)

/-! ## `paging_alloc_user_pages` -/

/-- The pages `vs` of the directory in frame `d` lead to distinct frames that were free, with
all three user flags in both entries, and every other page of every directory is as before. -/
structure Mapped (live : List ℕ) (d : ℕ) (vs : List ℕ) (s s' : Machine) : Prop where
  fresh : ∀ v ∈ vs, ∃ g, physOfVirt s'.mem (4096*d) v = 4096*g ∧ g < totalFrames ∧
    pmmIsUsed s.pmm g = false ∧ ∃ t, entry s'.mem (4096*d) (v/4194304) =
      (4096*t ||| pagePresent ||| pageWritable ||| pageUser) ∧
      entry s'.mem (4096*t) (v/4096 % 1024) = (4096*g ||| pagePresent ||| pageWritable ||| pageUser)
  distinct : ∀ v ∈ vs, ∀ w ∈ vs, physOfVirt s'.mem (4096*d) v = physOfVirt s'.mem (4096*d) w → v = w
  others : ∀ d' ∈ live, ∀ w < 2^32, (d' = d → ∀ v ∈ vs, w/4096 ≠ v/4096) →
    physOfVirt s'.mem (4096*d') w = physOfVirt s.mem (4096*d') w

section Request
variable {K : KernelLayout} {live : List ℕ} {d : ℕ} {s s' : Machine}

/-- A translation of a user page is a role of its frame. -/
theorem holds_of_maps {m : Mem} {v g : ℕ} (hv : v < 2^32) (hv2 : 2 ≤ v/4194304) (hm : Maps m d v g) :
    Holds m d (.table (v/4194304)) (tableFrame m d (v/4194304)) ∧
      Holds m d (.page (v/4194304) (v/4096 % 1024)) g := by
  have ht : Holds m d (.table (v/4194304)) (tableFrame m d (v/4194304)) := ⟨hv2,by omega,hm.pde,rfl⟩
  have hpte := hm.pte
  unfold pteOf at hpte
  refine ⟨ht,_,ht,by omega,?_,?_⟩
  · rw [hpte]
    exact isPresent_user g
  · rw [hpte,div_user]

theorem mapped_of_maps {vs : List ℕ} (h' : Separated K s' live) (hd : d ∈ live)
    (hvs : ∀ v ∈ vs, v < 2^32 ∧ 2 ≤ v/4194304) (hpages : ∀ v ∈ vs, ∀ w ∈ vs, v/4096 = w/4096 → v = w)
    (hmaps : ∀ v ∈ vs, ∃ g, Maps s'.mem d v g ∧ pmmIsUsed s.pmm g = false)
    (hothers : ∀ d' ∈ live, ∀ w < 2^32, (d' = d → ∀ v ∈ vs, w/4096 ≠ v/4096) →
      physOfVirt s'.mem (4096*d') w = physOfVirt s.mem (4096*d') w) : Mapped live d vs s s' := by
  refine ⟨fun v hv => ?_,fun v hv w hw he => ?_,hothers⟩
  · obtain ⟨g,hm,hfree⟩ := hmaps v hv
    obtain ⟨ht,hg⟩ := holds_of_maps (hvs v hv).1 (hvs v hv).2 hm
    refine ⟨g,hm.physOfVirt,(h'.owned d hd _ _ hg).2.1,hfree,tableFrame s'.mem d (v/4194304),?_,?_⟩
    · rw [user_flags]
      exact (h'.flagged d hd).tables _ _ ht
    · rw [user_flags]
      exact hm.pte
  · obtain ⟨g,hmv,_⟩ := hmaps v hv
    obtain ⟨g',hmw,_⟩ := hmaps w hw
    rw [hmv.physOfVirt,hmw.physOfVirt] at he
    obtain rfl : g = g' := by omega
    have hr := (h'.unique hd hd (holds_of_maps (hvs v hv).1 (hvs v hv).2 hmv).2
      (holds_of_maps (hvs w hw).1 (hvs w hw).2 hmw).2).2
    injection hr with hi hj
    exact hpages v hv w hw (samePage_iff.mp ⟨hi,hj⟩)

/-- The loop maps all its pages or a proper part from the front. -/
theorem allocUserPages_mapped {vs : List ℕ} (h : Separated K s live) (hd : d ∈ live)
    (hvs : ∀ v ∈ vs, v < 2^32 ∧ 2 ≤ v/4194304) (hpw : vs.Pairwise (fun v w => v/4096 ≠ w/4096)) :
    (∃ s', allocUserPages (4096*d) vs s = (true,s') ∧ Mapped live d vs s s') ∨
    ∃ ms v ws s', vs = ms ++ v :: ws ∧ allocUserPages (4096*d) vs s = (false,s') ∧ Mapped live d ms s s' := by
  have hinj : ∀ v ∈ vs, ∀ w ∈ vs, v/4096 = w/4096 → v = w := by
    have hnodup : (vs.map (fun v => v/4096)).Nodup := List.pairwise_map.mpr hpw
    intro v hv w hw he
    exact List.inj_on_of_nodup_map hnodup hv hw he
  have hlt := fun v hv => (hvs v hv).1
  rcases h.allocUserPages_cases hd hlt with ⟨s',hm,he⟩ | ⟨ms,v,ws,s₁,s₂,rfl,hm,hlast,he⟩
  · refine Or.inl ⟨s',he,mapped_of_maps (hm.separated h hd hlt) hd hvs hinj ?_ ?_⟩
    · intro v hv
      obtain ⟨g,hg⟩ := PagesMapped.fresh hm h hd hlt hpw v hv
      exact ⟨g,hg.maps,hg.fresh⟩
    · intro d' hd' w hw hne
      exact pagesMapped_others hm h hd hd' hvs hw hne
  · have hms : ∀ x ∈ ms, x < 2^32 ∧ 2 ≤ x/4194304 := fun x hx => hvs x (List.mem_append_left _ hx)
    have hmlt := fun x hx => (hms x hx).1
    have hmpw := (List.pairwise_append.mp hpw).1
    have h₁ := hm.separated h hd hmlt
    have hi : v/4194304 < 1024 := by
      have := hlt v (List.mem_append_right _ List.mem_cons_self)
      omega
    have hlast' : TableReady d (v/4194304) s₁ s₂ ∨ s₂ = s₁ := hlast.symm
    have h₂ : Separated K s₂ live := by
      rcases hlast' with hr | rfl
      · exact (h₁.tableReady hd hi hr).1
      · exact h₁
    refine Or.inr ⟨ms,v,ws,s₂,rfl,he,mapped_of_maps h₂ hd hms ?_ ?_ ?_⟩
    · exact fun x hx y hy => hinj x (List.mem_append_left _ hx) y (List.mem_append_left _ hy)
    · intro x hx
      obtain ⟨g,hg⟩ := PagesMapped.fresh hm h hd hmlt hmpw x hx
      rcases hlast' with hr | rfl
      · exact ⟨g,maps_tableReady h₁ hd (hmlt x hx) hi hr hg.maps,hg.fresh⟩
      · exact ⟨g,hg.maps,hg.fresh⟩
    · intro d' hd' w hw hne
      have hold := pagesMapped_others hm h hd hd' hms hw hne
      rcases hlast' with hr | rfl
      · exact (physOfVirt_tableReady h₁ hd hd' hi hr hw).trans hold
      · exact hold

end Request

theorem pagesFrom_pairwise {virtBase n : ℕ} (hlt : ∀ i < n, virtBase + i*4096 < 2^32) :
    (pagesFrom virtBase n).Pairwise (fun v w => v/4096 ≠ w/4096) := by
  unfold pagesFrom
  rw [List.pairwise_map]
  refine List.Pairwise.imp_of_mem ?_ (List.pairwise_lt_range (n := n))
  intro i j hi hj hij
  rw [Nat.mod_eq_of_lt (hlt i (List.mem_range.mp hi)),Nat.mod_eq_of_lt (hlt j (List.mem_range.mp hj))]
  omega

/-- In every run, a request for user pages of a live directory maps exactly these pages when it
returns 0, and exactly a proper prefix of them when it returns -1. -/
theorem allocUserPages_exact (K : KernelLayout) (mmap : BootMmap) (S : System) (hr : Reachable K mmap S)
    (d virtBase n : ℕ) (hd : d ∈ S.live)
    (hvs : ∀ i < n, virtBase + i*4096 < 2^32 ∧ 2 ≤ (virtBase+i*4096)/4194304) :
    ((pagingAllocUserPages (4096*d) virtBase n S.mach).1 = 0 ∧
      Mapped S.live d (pagesFrom virtBase n) S.mach (pagingAllocUserPages (4096*d) virtBase n S.mach).2) ∨
    ((pagingAllocUserPages (4096*d) virtBase n S.mach).1 = -1 ∧ ∃ k < n,
      Mapped S.live d (pagesFrom virtBase k) S.mach (pagingAllocUserPages (4096*d) virtBase n S.mach).2) := by
  have hpages : ∀ v ∈ pagesFrom virtBase n, v < 2^32 ∧ 2 ≤ v/4194304 := by
    intro v hv
    obtain ⟨i,hi,rfl⟩ := List.mem_map.mp hv
    obtain ⟨hlt,h2⟩ := hvs i (List.mem_range.mp hi)
    rw [Nat.mod_eq_of_lt hlt]
    exact ⟨hlt,h2⟩
  rcases allocUserPages_mapped hr.separated hd hpages (pagesFrom_pairwise fun i hi => (hvs i hi).1) with
    ⟨s',he,hm⟩ | ⟨ms,v,ws,s',hsplit,he,hm⟩
  · left
    unfold pagingAllocUserPages
    rw [he]
    exact ⟨rfl,hm⟩
  · right
    unfold pagingAllocUserPages
    rw [he]
    have hlen := congrArg List.length hsplit
    simp only [pagesFrom,List.length_map,List.length_range,List.length_append,List.length_cons] at hlen
    have hprefix : ms = pagesFrom virtBase ms.length := by
      have htake := congrArg (List.take ms.length) hsplit
      rw [List.take_left' rfl] at htake
      unfold pagesFrom at htake ⊢
      rw [← List.map_take,List.take_range,Nat.min_eq_left (by omega)] at htake
      exact htake.symm
    refine ⟨rfl,ms.length,by omega,?_⟩
    rw [← hprefix]
    exact hm

/-- Two pages of a first directory. -/
theorem allocUserPages_exact_oneDirectory :
    ((pagingAllocUserPages (4096*firstDirectory) 0x1000000 2 oneDirectory.mach).1 = 0 ∧
      Mapped oneDirectory.live firstDirectory (pagesFrom 0x1000000 2) oneDirectory.mach
        (pagingAllocUserPages (4096*firstDirectory) 0x1000000 2 oneDirectory.mach).2) ∨
    ((pagingAllocUserPages (4096*firstDirectory) 0x1000000 2 oneDirectory.mach).1 = -1 ∧ ∃ k < 2,
      Mapped oneDirectory.live firstDirectory (pagesFrom 0x1000000 k) oneDirectory.mach
        (pagingAllocUserPages (4096*firstDirectory) 0x1000000 2 oneDirectory.mach).2) := by
  have hd : firstDirectory ∈ oneDirectory.live := by
    obtain ⟨q,_,he⟩ := oneDirectory_spec
    rw [he]
    exact List.mem_singleton_self firstDirectory
  exact allocUserPages_exact sampleLayout ⟨[],by decide⟩ oneDirectory
    (.step (.boot fun _ => 0) (.create bootedSystem)) firstDirectory 0x1000000 2 hd (by decide)

end VesperOS.PagingCalls
