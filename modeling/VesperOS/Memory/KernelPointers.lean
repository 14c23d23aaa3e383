import VesperOS.Memory.SpaceLifecycle
import VesperOS.Memory.Translation

/-! # Physical addresses used as kernel pointers

`paging.c` and `phys_of_virt` reach directories and tables by their physical address, which
is the kernel's own address only below 8 MB, the part that `paging_init` maps. For each
function the addresses it dereferences are listed in the order of use; the static arrays of
the kernel image are not listed. The bitmap covers 32 MB, so the addresses stay in the
mapped part as long as the frames that are free or held by a directory do.
-/
namespace VesperOS.KernelPointers
open ByteMemory FrameAllocator Paging AddressSpaces Translation SpaceLifecycle

/-- The frames of the first 8 MB: two tables of 1024 entries. -/
def mappedFrames : ℕ := 2048
/-- The end of what `paging_init` maps. -/
def mappedEnd : ℕ := 0x800000

def createPdPointers (s : Machine) : List ℕ :=
  if (pmmAllocFrame s.pmm).1 = 0 then [] else [(pmmAllocFrame s.pmm).1]

/-- `pd[pdi]` is read, and a new table is cleared. -/
def ensureTablePointers (pd pdi : ℕ) (s : Machine) : List ℕ :=
  if isPresent (entry s.mem pd pdi) then [pd]
  else if (pmmAllocFrame s.pmm).1 = 0 then [pd] else [pd,(pmmAllocFrame s.pmm).1]

/-- With a frame for the page, `pd[pdi]` is read again and the table it names is written. -/
def enterFramePointers (pd pdi : ℕ) (s : Machine) : List ℕ :=
  if (pmmAllocFrame s.pmm).1 = 0 then [] else [pd,pageBase (entry s.mem pd pdi)]

def allocUserPagePointers (pd virt : ℕ) (s : Machine) : List ℕ :=
  let r := ensureTable pd (virt/4194304) s
  ensureTablePointers pd (virt/4194304) s ++ if r.1 then enterFramePointers pd (virt/4194304) r.2 else []

def allocUserPagesPointers (pd : ℕ) : List ℕ → Machine → List ℕ
  | [], _ => []
  | virt :: rest, s =>
    let r := allocUserPage pd virt s
    allocUserPagePointers pd virt s ++ if r.1 then allocUserPagesPointers pd rest r.2 else []

/-- The directory and the tables of its present PDEs from 2 on. -/
def destroyPdPointers (pd : ℕ) (s : Machine) : List ℕ :=
  pd :: ((List.range' 2 1022).filter (fun i => isPresent (entry s.mem pd i))).map
    (fun i => pageBase (entry s.mem pd i))

def physOfVirtPointers (m : Mem) (pd virt : ℕ) : List ℕ :=
  if isPresent (entry m pd (virt/4194304)) then [pd,pageBase (entry m pd (virt/4194304))] else [pd]

/-! ## Machines whose frames lie below 8 MB -/

/-- Frames that are free or held by a live directory lie in the mapped part. -/
structure LowFrames (s : Machine) (live : List ℕ) : Prop where
  free : ∀ f, pmmIsUsed s.pmm f = false → f < mappedFrames
  held : ∀ d ∈ live, ∀ r f, Holds s.mem d r f → f < mappedFrames

theorem LowFrames.takes {s : Machine} {live : List ℕ} (h : LowFrames s live) {q : Pmm} {f : ℕ}
    (ht : Takes s.pmm q f) :
    f < mappedFrames ∧ ∀ g, pmmIsUsed q g = false → g < mappedFrames := by
  refine ⟨h.free f ht.unused,fun g hu => h.free g ?_⟩
  cases hp : pmmIsUsed s.pmm g with
  | false => rfl
  | true => exact (ht.mono hp).symm.trans hu

theorem low_pointer {f : ℕ} (h : f < mappedFrames) : 4096*f < mappedEnd := by
  unfold mappedFrames at h
  unfold mappedEnd
  omega

theorem mappedFrames_kernel (K : KernelLayout) {t : ℕ} (ht : t < 2) : K.tablesFrame + t < mappedFrames := by
  have h := K.tables_low
  unfold lowFrames at h
  unfold mappedFrames
  omega

section Steps
variable {K : KernelLayout} {s : Machine} {live : List ℕ} (h : Separated K s live) (hl : LowFrames s live)
include h hl

theorem LowFrames.freshDir {d : ℕ} {q : Pmm} (ht : Takes s.pmm q d) :
    LowFrames ⟨AddressSpaces.freshDir K s.mem d,q⟩ (d :: live) := by
  obtain ⟨hd,hfree⟩ := hl.takes ht
  refine ⟨hfree,fun d' hd' r f hf => ?_⟩
  rcases List.mem_cons.mp hd' with rfl | hd'
  · rw [((holds_freshDir K s.mem d' r f).mp hf).2]
    exact hd
  · exact hl.held d' hd' r f (((h.untouched_freshDir ht hd').holds r f).mp hf)

theorem LowFrames.tableReady {d i : ℕ} {s₁ : Machine} (hd : d ∈ live) (hi : i < 1024) (hr : TableReady d i s s₁) :
    LowFrames s₁ live := by
  rcases hr with ⟨_,rfl⟩ | ⟨hp,hi2,t,q,ht,rfl⟩
  · exact hl
  · obtain ⟨htlow,hfree⟩ := hl.takes ht
    refine ⟨hfree,fun d' hd' r f hf => ?_⟩
    rcases (h.holds_linkTable hd hi2 hi hp ht hd' r f).mp hf with hf | ⟨_,_,rfl⟩
    · exact hl.held d' hd' r f hf
    · exact htlow

theorem LowFrames.enter {d i j g : ℕ} {q : Pmm} (hd : d ∈ live) (hi : i < 1024) (hj : j < 1024)
    (hp : isPresent (entry s.mem (4096*d) i) = true) (hg : Takes s.pmm q g) :
    LowFrames ⟨linkPage s.mem (entry s.mem (4096*d) i/4096) j g,q⟩ live := by
  obtain ⟨hglow,hfree⟩ := hl.takes hg
  refine ⟨hfree,fun d' hd' r f hf => ?_⟩
  rcases h.present_cases hd hi hp with hu | ⟨hi2,he⟩
  · rw [h.holds_linkPage hd hu hj hg hd'] at hf
    split at hf
    · rw [hf]
      exact hglow
    · exact hl.held d' hd' r f hf
  · rw [he] at hf
    exact hl.held d' hd' r f (((h.untouched_kernelTable hd' hj hi2).holds r f).mp hf)

theorem LowFrames.pageMapped {d v : ℕ} {s' : Machine} (hd : d ∈ live) (hv : v < 2^32) (hm : PageMapped d v s s') :
    LowFrames s' live := by
  obtain ⟨s₁,g,q,hr,hg,rfl⟩ := hm
  obtain ⟨h₁,hp⟩ := h.tableReady hd (by omega) hr
  exact (hl.tableReady h hd (by omega) hr).enter h₁ hd (by omega) (by omega) hp hg

omit h in
theorem LowFrames.dataFrame {g : ℕ} (hg : DataFrame s live g) {m' : Mem} (hm : ∀ k, k ≠ g → SameFrame s.mem m' k) :
    LowFrames ⟨m',s.pmm⟩ live :=
  ⟨hl.free,fun d hd r f hf => hl.held d hd r f (((untouched_dataFrame hg hm hd).holds r f).mp hf)⟩

omit h in
/-- The frames given back were held. -/
theorem LowFrames.destroyPd {d : ℕ} (hd : d ∈ live) : LowFrames (pagingDestroyPd (4096*d) s) (live.erase d) := by
  refine ⟨fun f hu => ?_,fun d' hd' => hl.held d' (List.mem_of_mem_erase hd')⟩
  by_cases hheld : ∃ r, Holds s.mem d r f
  · obtain ⟨r,hr⟩ := hheld
    exact hl.held d hd r f hr
  · apply hl.free f
    cases hp : pmmIsUsed s.pmm f with
    | false => rfl
    | true =>
      have hused := ((releases_destroyPd d s).bits f).mpr ⟨hp,fun hn => hheld hn.2⟩
      exact hused.symm.trans hu

/-! ## Pointers on such machines -/

/-- The table that a present PDE names. -/
theorem table_pointer {d i : ℕ} (hd : d ∈ live) (hi : i < 1024) (hp : isPresent (entry s.mem (4096*d) i) = true) :
    pageBase (entry s.mem (4096*d) i) < mappedEnd := by
  rw [pageBase_eq]
  apply low_pointer
  rcases h.present_cases hd hi hp with hu | ⟨hi2,he⟩
  · exact hl.held d hd _ _ hu
  · rw [he]
    exact mappedFrames_kernel K hi2

omit h in
theorem dir_pointer {d : ℕ} (hd : d ∈ live) : 4096*d < mappedEnd := low_pointer (hl.held d hd .dir d rfl)

theorem createPd_pointers : ∀ p ∈ createPdPointers s, p < mappedEnd := by
  unfold createPdPointers
  intro p hp
  rcases allocFrame_cases h.sound with ⟨_,he⟩ | ⟨f,q,he,ht⟩
  · rw [he,if_pos rfl] at hp
    cases hp
  · rw [he] at hp
    dsimp only at hp
    split at hp
    · cases hp
    · rw [List.mem_singleton.mp hp]
      exact low_pointer (hl.takes ht).1

theorem ensureTable_pointers {d i : ℕ} (hd : d ∈ live) : ∀ p ∈ ensureTablePointers (4096*d) i s, p < mappedEnd := by
  have hdir := dir_pointer hl hd
  unfold ensureTablePointers
  intro p hp
  split at hp
  · rw [List.mem_singleton.mp hp]
    exact hdir
  · rcases allocFrame_cases h.sound with ⟨_,he⟩ | ⟨f,q,he,ht⟩
    · rw [he,if_pos rfl] at hp
      rw [List.mem_singleton.mp hp]
      exact hdir
    · rw [he] at hp
      dsimp only at hp
      split at hp
      · rw [List.mem_singleton.mp hp]
        exact hdir
      · rcases List.mem_cons.mp hp with rfl | hp
        · exact hdir
        · rw [List.mem_singleton.mp hp]
          exact low_pointer (hl.takes ht).1

theorem enterFrame_pointers {d i : ℕ} (hd : d ∈ live) (hi : i < 1024)
    (hp : isPresent (entry s.mem (4096*d) i) = true) : ∀ p ∈ enterFramePointers (4096*d) i s, p < mappedEnd := by
  unfold enterFramePointers
  intro p hmem
  split at hmem
  · cases hmem
  · rcases List.mem_cons.mp hmem with rfl | hmem
    · exact dir_pointer hl hd
    · rw [List.mem_singleton.mp hmem]
      exact table_pointer h hl hd hi hp

theorem allocUserPage_pointers {d v : ℕ} (hd : d ∈ live) (hv : v < 2^32) :
    ∀ p ∈ allocUserPagePointers (4096*d) v s, p < mappedEnd := by
  have hi : v/4194304 < 1024 := by omega
  unfold allocUserPagePointers
  intro p hp
  rcases List.mem_append.mp hp with hp | hp
  · exact ensureTable_pointers h hl hd p hp
  · rcases h.ensureTable_cases (i := v/4194304) hd with ⟨hpres,he⟩ | ⟨habs,hi2,⟨_,he⟩ | ⟨t,q,ht,he⟩⟩
    · simp only [he,if_true] at hp
      exact enterFrame_pointers h hl hd hi hpres p hp
    · rw [he] at hp
      cases hp
    · have hr : TableReady d (v/4194304) s ⟨linkTable s.mem d (v/4194304) t,q⟩ := Or.inr ⟨habs,hi2,t,q,ht,rfl⟩
      obtain ⟨h₁,hpres⟩ := h.tableReady hd hi hr
      simp only [he,if_true] at hp
      exact enterFrame_pointers h₁ (hl.tableReady h hd hi hr) hd hi hpres p hp

theorem destroyPd_pointers {d : ℕ} (hd : d ∈ live) : ∀ p ∈ destroyPdPointers (4096*d) s, p < mappedEnd := by
  unfold destroyPdPointers
  intro p hp
  rcases List.mem_cons.mp hp with rfl | hp
  · exact dir_pointer hl hd
  · obtain ⟨i,hi,rfl⟩ := List.mem_map.mp hp
    rw [List.mem_filter,List.mem_range'_1] at hi
    exact table_pointer h hl hd (by omega) hi.2

theorem physOfVirt_pointers {d v : ℕ} (hd : d ∈ live) (hv : v < 2^32) :
    ∀ p ∈ physOfVirtPointers s.mem (4096*d) v, p < mappedEnd := by
  unfold physOfVirtPointers
  intro p hp
  split at hp
  · rename_i hpres
    rcases List.mem_cons.mp hp with rfl | hp
    · exact dir_pointer hl hd
    · rw [List.mem_singleton.mp hp]
      exact table_pointer h hl hd (by omega) hpres
  · rw [List.mem_singleton.mp hp]
    exact dir_pointer hl hd

end Steps

section Request
variable {K : KernelLayout} {live : List ℕ} {d : ℕ}

theorem LowFrames.pagesMapped {vs : List ℕ} {s s' : Machine} (hm : PagesMapped d vs s s') (h : Separated K s live)
    (hl : LowFrames s live) (hd : d ∈ live) (hvs : ∀ v ∈ vs, v < 2^32) : LowFrames s' live := by
  induction hm with
  | nil => exact hl
  | cons hv _ ih =>
    have hlt := hvs _ List.mem_cons_self
    exact ih (h.pageMapped hd hlt hv) (hl.pageMapped h hd hlt hv) fun w hw => hvs w (List.mem_cons_of_mem _ hw)

theorem LowFrames.allocUserPages {vs : List ℕ} {s : Machine} (h : Separated K s live) (hl : LowFrames s live)
    (hd : d ∈ live) (hvs : ∀ v ∈ vs, v < 2^32) : LowFrames (Paging.allocUserPages (4096*d) vs s).2 live := by
  rcases h.allocUserPages_cases hd hvs with ⟨s',hm,he⟩ | ⟨ms,v,ws,s₁,s₂,rfl,hm,hlast,he⟩
  · rw [he]
    exact LowFrames.pagesMapped hm h hl hd hvs
  · rw [he]
    have hms := fun w hw => hvs w (List.mem_append_left (v :: ws) hw)
    have hv := hvs v (List.mem_append_right _ List.mem_cons_self)
    have hl₁ := LowFrames.pagesMapped hm h hl hd hms
    rcases hlast with rfl | hr
    · exact hl₁
    · exact hl₁.tableReady (hm.separated h hd hms) hd (by omega) hr

/-- A whole request. -/
theorem allocUserPages_pointers {vs : List ℕ} {s : Machine} (h : Separated K s live) (hl : LowFrames s live)
    (hd : d ∈ live) (hvs : ∀ v ∈ vs, v < 2^32) : ∀ p ∈ allocUserPagesPointers (4096*d) vs s, p < mappedEnd := by
  induction vs generalizing s with
  | nil => exact fun p hp => (nomatch hp)
  | cons v vs ih =>
    have hv := hvs v List.mem_cons_self
    intro p hp
    unfold allocUserPagesPointers at hp
    rcases List.mem_append.mp hp with hp | hp
    · exact allocUserPage_pointers h hl hd hv p hp
    · rcases h.allocUserPage_cases hd hv with ⟨_,_,he⟩ | ⟨s₁,_,_,he⟩ | ⟨s₁,hm,he⟩
      · rw [he] at hp
        cases hp
      · rw [he] at hp
        cases hp
      · rw [he] at hp
        exact ih (h.pageMapped hd hv hm) (hl.pageMapped h hd hv hm)
          (fun w hw => hvs w (List.mem_cons_of_mem _ hw)) p hp

end Request

end VesperOS.KernelPointers
