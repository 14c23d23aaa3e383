import VesperOS.Loader.PageFill
import VesperOS.Memory.AllocationBudget
import VesperOS.Memory.SpaceLifecycle

/-! # What the user loader will do

The loader is driven by the program headers and by the frames that are left.
`Image.plan` computes from these two alone which headers are visited, which
segments are copied, which pages are mapped and how the load ends. A `LoadRun`
is the sequence of changes the loader makes to memory, each of them one of
three: a page table is made ready, a page is mapped, a page is filled. The
loader is shown to follow its plan.
-/
namespace VesperOS.LoadPlan
open ByteMemory FrameAllocator Paging AddressSpaces AllocationBudget Translation ElfImage PageFill

/-- The machine after some steps of a load that started in `s₀`, with the pages
mapped so far. -/
inductive LoadRun (live : List ℕ) (d : ℕ) (s₀ : Machine) : List ℕ → Machine → Prop
  | start : LoadRun live d s₀ [] s₀
  | table {vs : List ℕ} {s s' : Machine} {i : ℕ} :
      LoadRun live d s₀ vs s → i < 1024 → TableReady d i s s' → LoadRun live d s₀ vs s'
  | page {vs : List ℕ} {s s' : Machine} {v : ℕ} :
      LoadRun live d s₀ vs s → v < 2^32 → PageMapped d v s s' → LoadRun live d s₀ (vs++[v]) s'
  | fill {vs : List ℕ} {s : Machine} {v g : ℕ} {m' : Mem} :
      LoadRun live d s₀ vs s → FreshData s₀ live d v g s → (∀ k, k ≠ g → SameFrame s.mem m' k) →
      LoadRun live d s₀ vs ⟨m',s.pmm⟩

section Fill
variable {K : KernelLayout} {s : Machine} {live : List ℕ} (h : Separated K s live)
include h

/-- A write inside a data frame keeps every address space. -/
theorem separated_dataFrame {g : ℕ} (hg : DataFrame s live g) {m' : Mem}
    (hm : ∀ k, k ≠ g → SameFrame s.mem m' k) : Separated K ⟨m',s.pmm⟩ live := by
  refine h.untouched (hm _ ?_) fun d hd => untouched_dataFrame hg hm hd
  have h1 := K.directory_low
  have h2 := hg.low
  omega

omit h in
theorem dataFrame_dataFrame {g f : ℕ} (hg : DataFrame s live g) {m' : Mem}
    (hm : ∀ k, k ≠ g → SameFrame s.mem m' k) (hf : DataFrame s live f) : DataFrame ⟨m',s.pmm⟩ live f :=
  ⟨hf.low,hf.dir,fun d hd i t ht => hf.table d hd i t (((untouched_dataFrame hg hm hd).holds _ _).mp ht)⟩

theorem maps_dataFrame_iff {g : ℕ} (hg : DataFrame s live g) {m' : Mem}
    (hm : ∀ k, k ≠ g → SameFrame s.mem m' k) {d v f : ℕ} (hd : d ∈ live) (hv : v < 2^32) :
    Maps m' d v f ↔ Maps s.mem d v f := by
  constructor
  · intro hf
    have hback : ∀ k, k ≠ g → SameFrame m' s.mem k := fun k hk x hx => (hm k hk x hx).symm
    exact maps_dataFrame (separated_dataFrame h hg hm) (dataFrame_dataFrame hg hm hg) hback hd hv hf
  · intro hf
    exact maps_dataFrame h hg hm hd hv hf

omit h in
theorem budget_dataFrame {g d : ℕ} (hg : DataFrame s live g) {m' : Mem}
    (hm : ∀ k, k ≠ g → SameFrame s.mem m' k) (hd : d ∈ live) : budgetOf ⟨m',s.pmm⟩ d = budgetOf s d := by
  have hdir := (untouched_dataFrame hg hm hd).1
  simp only [budgetOf,Budget.mk.injEq,true_and]
  ext i
  simp only [Finset.mem_filter,Finset.mem_range,and_congr_right_iff]
  intro hi
  rw [hdir.entry hi]

end Fill

section Run
variable {K : KernelLayout} {live : List ℕ} {d : ℕ} {s₀ : Machine} (h₀ : Separated K s₀ live) (hd : d ∈ live)
include h₀ hd

theorem LoadRun.separated {vs : List ℕ} {s : Machine} (hr : LoadRun live d s₀ vs s) : Separated K s live := by
  induction hr with
  | start => exact h₀
  | table _ hi ht ih => exact (ih.tableReady hd hi ht).1
  | page _ hv hm ih => exact ih.pageMapped hd hv hm
  | fill _ hg hm ih => exact separated_dataFrame ih hg.data hm

/-- A load never frees a frame. -/
theorem LoadRun.mono {vs : List ℕ} {s : Machine} (hr : LoadRun live d s₀ vs s) {f : ℕ}
    (hf : pmmIsUsed s₀.pmm f = true) : pmmIsUsed s.pmm f = true := by
  induction hr with
  | start => exact hf
  | table _ _ ht ih => exact tableReady_mono ht ih
  | page hr hv hm ih =>
    obtain ⟨g,e⟩ := pageMapped_effect (hr.separated h₀ hd) hd hv hm
    exact e.mono f ih
  | fill _ _ _ ih => exact ih

theorem LoadRun.unused {vs : List ℕ} {s : Machine} (hr : LoadRun live d s₀ vs s) {f : ℕ}
    (hf : pmmIsUsed s.pmm f = false) : pmmIsUsed s₀.pmm f = false := by
  cases hu : pmmIsUsed s₀.pmm f with
  | false => rfl
  | true => exact (hr.mono h₀ hd hu).symm.trans hf

omit h₀ hd in
theorem LoadRun.pages {vs ws : List ℕ} {s s' : Machine} (hr : LoadRun live d s₀ vs s)
    (hm : PagesMapped d ws s s') (hws : ∀ v ∈ ws, v < 2^32) : LoadRun live d s₀ (vs++ws) s' := by
  induction hm generalizing vs with
  | nil => simpa using hr
  | @cons v ws s s₁ s' hv _ ih =>
    have hstep := hr.page (hws v List.mem_cons_self) hv
    have hrest := ih hstep fun w hw => hws w (List.mem_cons_of_mem _ hw)
    simpa using hrest

/-- Frames that are fresh for a later part of a load are fresh for all of it. -/
theorem LoadRun.freshData {vs : List ℕ} {s s' : Machine} (hr : LoadRun live d s₀ vs s) {v g : ℕ}
    (hf : FreshData s live d v g s') : FreshData s₀ live d v g s' :=
  ⟨hf.maps,hr.unused h₀ hd hf.fresh,hf.used,hf.data⟩

omit h₀ hd in
theorem maps_samePage {m : Mem} {v w g : ℕ} (he : v/4096 = w/4096) (hm : Maps m d v g) : Maps m d w g := by
  have h1 : v/4194304 = w/4194304 := by omega
  obtain ⟨hpde,hpte⟩ := hm
  simp only [pteOf] at hpte
  exact ⟨h1 ▸ hpde,by rw [pteOf,← h1,← he]; exact hpte⟩

/-- Every page mapped during a load stays mapped to a frame that was free before it. -/
theorem LoadRun.mapped {vs : List ℕ} {s : Machine} (hr : LoadRun live d s₀ vs s) :
    ∀ v ∈ vs, v < 2^32 ∧ ∃ g, Maps s.mem d v g ∧ pmmIsUsed s₀.pmm g = false := by
  induction hr with
  | start => simp
  | table hr hi ht ih =>
    intro v hv
    obtain ⟨hlt,g,hm,hg⟩ := ih v hv
    exact ⟨hlt,g,maps_tableReady (hr.separated h₀ hd) hd hlt hi ht hm,hg⟩
  | @page vs s s' w hr hw hm ih =>
    obtain ⟨g,e⟩ := pageMapped_effect (hr.separated h₀ hd) hd hw hm
    have hfresh := hr.unused h₀ hd e.fresh
    intro v hv
    rcases List.mem_append.mp hv with hv | hv
    · obtain ⟨hlt,g',hm',hg'⟩ := ih v hv
      by_cases he : v/4096 = w/4096
      · exact ⟨hlt,g,maps_samePage he.symm e.maps,hfresh⟩
      · exact ⟨hlt,g',e.keeps v g' hlt he hm',hg'⟩
    · rw [List.mem_singleton.mp hv]
      exact ⟨hw,g,e.maps,hfresh⟩
  | fill hr hg hm ih =>
    intro v hv
    obtain ⟨hlt,g',hm',hg'⟩ := ih v hv
    exact ⟨hlt,g',maps_dataFrame (hr.separated h₀ hd) hg.data hm hd hlt hm',hg'⟩

end Run

/-! ## Filling the pages of a segment -/

/-- Page after page is filled through the directory in frame `d`. -/
inductive PagesFilled (img : Image) (ph : Phdr) (d : ℕ) : List ℕ → Mem → Mem → Prop
  | nil (m : Mem) : PagesFilled img ph d [] m m
  | cons {v g : ℕ} {vs : List ℕ} {m m₁ m' : Mem} : Maps m d v g → Filled img ph v g m m₁ →
      PagesFilled img ph d vs m₁ m' → PagesFilled img ph d (v :: vs) m m'

def fillsReads (ph : Phdr) (vs : List ℕ) : List Range := (vs.map (fillReads ph)).flatten

section Pages
variable {K : KernelLayout} {live : List ℕ} {d : ℕ} {s₀ : Machine} {img : Image} {ph : Phdr}

/-- What must hold of the pages that are about to be filled. -/
def Ready (live : List ℕ) (d : ℕ) (s₀ s : Machine) (vs : List ℕ) : Prop :=
  ∀ v ∈ vs, v < 2^32 ∧ v % 4096 = 0 ∧ ∃ g, FreshData s₀ live d v g s

theorem Ready.filled {s : Machine} {vs : List ℕ} {v g : ℕ} {m' : Mem} (h : Separated K s live) (hd : d ∈ live)
    (hr : Ready live d s₀ s vs) (hg : FreshData s₀ live d v g s) (hm : ∀ k, k ≠ g → SameFrame s.mem m' k) :
    Ready live d s₀ ⟨m',s.pmm⟩ vs := by
  intro w hw
  obtain ⟨hlt,hal,f,hf⟩ := hr w hw
  exact ⟨hlt,hal,f,maps_dataFrame h hg.data hm hd hlt hf.maps,hf.fresh,hf.used,
    dataFrame_dataFrame hg.data hm hf.data⟩

/-- The fill loop of a segment that is not overlong. -/
theorem fillPages_next (img : Image) (hb : Bounded ph) (hl : ¬ Overlong ph) (hd : d ∈ live) {vs : List ℕ} {s : UserLoad}
    (h : Separated K s.mach live) (hr : Ready live d s₀ s.mach vs) :
    ∃ m' rs, fillPages img ph (4096*d) vs s = .next ⟨⟨m',s.mach.pmm⟩,rs⟩ ∧
      (∀ r, r ∈ rs ↔ r ∈ fillsReads ph vs ∨ r ∈ s.reads) ∧ PagesFilled img ph d vs s.mach.mem m' := by
  induction vs generalizing s with
  | nil => exact ⟨s.mach.mem,s.reads,rfl,by simp [fillsReads],.nil _⟩
  | cons v vs ih =>
    obtain ⟨hlt,hal,g,hg⟩ := hr v List.mem_cons_self
    obtain ⟨m₁,he,hf⟩ := fillPage_next img hb hlt hal hl hg.maps hg.data.low
    have hrest : Ready live d s₀ s.mach vs := fun w hw => hr w (List.mem_cons_of_mem v hw)
    obtain ⟨m',rs,he',hrs,hfs⟩ := ih (s := ⟨⟨m₁,s.mach.pmm⟩,fillReads ph v ++ s.reads⟩)
      (separated_dataFrame h hg.data hf.others) (hrest.filled h hd hg hf.others)
    refine ⟨m',rs,by simp only [fillPages,he,he'],fun r => ?_,.cons hg.maps hf hfs⟩
    rw [hrs]
    simp only [fillsReads,List.map_cons,List.flatten_cons,List.mem_append]
    tauto

/-- Filling makes steps of the load. -/
theorem LoadRun.filled (h₀ : Separated K s₀ live) (hd : d ∈ live) {ms vs : List ℕ} {m m' : Mem} {p : Pmm}
    (hf : PagesFilled img ph d vs m m') (hr : LoadRun live d s₀ ms ⟨m,p⟩)
    (hready : Ready live d s₀ ⟨m,p⟩ vs) :
    LoadRun live d s₀ ms ⟨m',p⟩ ∧ budgetOf ⟨m',p⟩ d = budgetOf ⟨m,p⟩ d := by
  induction hf with
  | nil => exact ⟨hr,rfl⟩
  | @cons v g vs m m₁ m' hm hfill _ ih =>
    obtain ⟨_,_,g',hg⟩ := hready v List.mem_cons_self
    obtain rfl : g = g' := hm.unique hg.maps
    have hrest : Ready live d s₀ ⟨m,p⟩ vs := fun w hw => hready w (List.mem_cons_of_mem v hw)
    have hsep := hr.separated h₀ hd
    obtain ⟨h1,h2⟩ := ih (hr.fill hg hfill.others) (hrest.filled hsep hd hg hfill.others)
    exact ⟨h1,h2.trans (budget_dataFrame hg.data hfill.others hd)⟩

end Pages

/-! ## The plan -/

inductive PlanEnd where
  | loaded (b : Budget)
  | refused
  | outOfMemory
  | overrun

/-- Headers visited, segments copied, pages mapped and the end of a load. -/
structure Plan where
  visited : List ℕ
  copied : List ℕ
  pages : List ℕ
  ending : PlanEnd

def Plan.skip (p : Plan) (i : ℕ) : Plan := { p with visited := i :: p.visited }

def Plan.segment (p : Plan) (i : ℕ) (vs : List ℕ) : Plan :=
  ⟨i :: p.visited,i :: p.copied,vs ++ p.pages,p.ending⟩

/-- The segments from the given indices on. -/
def planSegments (img : Image) : List ℕ → Budget → Plan
  | [], b => ⟨[],[],[],.loaded b⟩
  | i :: rest, b =>
    let ph := img.phdr i
    if ph.type ≠ 1 ∨ ph.memsz = 0 then (planSegments img rest b).skip i
    else if ph.outside img.len then ⟨[i],[],[],.refused⟩
    else
      match (b.run ph.pages).2 with
      | none => ⟨[i],[],(b.run ph.pages).1,.outOfMemory⟩
      | some b' =>
        if Overlong ph ∧ ph.nPages ≠ 0 then ⟨[i],[i],ph.pages,.overrun⟩
        else (planSegments img rest b').segment i ph.pages

/-- The plan of `elf_load_user` for an image and a budget. -/
def plan (img : Image) (b : Budget) : Plan :=
  if img.len < ehdrSize ∨ img.headerOk = false then ⟨[],[],[],.refused⟩
  else planSegments img (List.range img.ePhnum) b

/-- The fields of program header `i` that are read when it is visited. -/
def headerReads (img : Image) (i : ℕ) : List Range :=
  let off := img.phdrOff i
  let ph := img.phdr i
  if ph.type ≠ 1 then [(off,4)]
  else if ph.memsz = 0 then [(off+20,4),(off,4)]
  else if ph.outside img.len then [(off+16,4),(off+4,4),(off+20,4),(off,4)]
  else [(off+8,4),(off+16,4),(off+4,4),(off+20,4),(off,4)]

/-- The ranges of the image that a copied segment is read from. -/
def segmentReads (ph : Phdr) : List Range :=
  if Overlong ph ∧ ph.nPages ≠ 0 then [(ph.offset,ph.filesz)] else fillsReads ph ph.pages

def PlanEnd.Matches (d : ℕ) (r : LoadStep) (s' : UserLoad) : PlanEnd → Prop
  | .loaded b => r = .next s' ∧ budgetOf s'.mach d = b
  | .refused => r = .fail s'
  | .outOfMemory => r = .fail s'
  | .overrun => r = .overrun s'

/-- The rest of a load goes as planned. -/
structure Follows (img : Image) (live : List ℕ) (d : ℕ) (s₀ : Machine) (ms : List ℕ) (s : UserLoad)
    (p : Plan) (r : LoadStep) (s' : UserLoad) : Prop where
  run : LoadRun live d s₀ (ms++p.pages) s'.mach
  reads : ∀ x, x ∈ s'.reads ↔ x ∈ s.reads ∨ (∃ i ∈ p.visited, x ∈ headerReads img i) ∨
    ∃ i ∈ p.copied, x ∈ segmentReads (img.phdr i)
  ends : p.ending.Matches d r s'

/-! ## The loader follows its plan -/

theorem mem_pages {ph : Phdr} {v : ℕ} (hv : v ∈ ph.pages) : v < 2^32 ∧ v % 4096 = 0 := by
  simp only [Phdr.pages,pagesFrom,List.mem_map,List.mem_range] at hv
  obtain ⟨j,hj,rfl⟩ := hv
  have hs : ph.pageStart = ph.vaddr/4096*4096 := rfl
  omega

/-- A segment never asks for the same page twice: it has fewer than 2^20 pages. -/
theorem pages_pairwise (ph : Phdr) : ph.pages.Pairwise (fun v w => v/4096 ≠ w/4096) := by
  have hs : ph.pageStart = ph.vaddr/4096*4096 := rfl
  have hn : ph.nPages < 2^20 := by
    simp only [Phdr.nPages]
    omega
  simp only [Phdr.pages,pagesFrom,List.pairwise_map]
  refine List.Pairwise.imp_of_mem ?_ (List.pairwise_lt_range (n := ph.nPages))
  intro i j hi hj hlt
  rw [List.mem_range] at hi hj
  omega

theorem pages_head {ph : Phdr} (hb : Bounded ph) (hn : ph.nPages ≠ 0) :
    ∃ rest, ph.pages = ph.pageStart :: rest := by
  have hv := hb.vaddr
  have hs : ph.pageStart = ph.vaddr/4096*4096 := rfl
  obtain ⟨n,hn⟩ := Nat.exists_eq_succ_of_ne_zero hn
  refine ⟨(List.range n).map (fun i => (ph.pageStart+(i+1)*4096) % 2^32),?_⟩
  simp only [Phdr.pages,pagesFrom,hn,Nat.succ_eq_add_one,List.range_succ_eq_map,List.map_cons,List.map_map,
    List.cons.injEq]
  refine ⟨by omega,rfl⟩

section Segment
variable {K : KernelLayout} {live : List ℕ} {d : ℕ} {s₀ : Machine} {img : Image}
  (h₀ : Separated K s₀ live) (hd : d ∈ live)
include h₀ hd

/-- After a successful request every page of the segment can be filled. -/
theorem ready_pages {ph : Phdr} {ms : List ℕ} {s s₁ : Machine}
    (hr : LoadRun live d s₀ ms s) (hm : PagesMapped d ph.pages s s₁) : Ready live d s₀ s₁ ph.pages := by
  intro v hv
  obtain ⟨hlt,hal⟩ := mem_pages hv
  have hsep := hr.separated h₀ hd
  obtain ⟨g,hg⟩ := PagesMapped.fresh hm hsep hd (fun w hw => (mem_pages hw).1) (pages_pairwise ph) v hv
  exact ⟨hlt,hal,g,hr.freshData h₀ hd hg⟩

/-- One segment that passes the bounds check. -/
theorem loadUserSegment_cases {ms : List ℕ} {s : UserLoad} (hr : LoadRun live d s₀ ms s.mach) {i : ℕ}
    (h1 : (img.phdr i).type = 1) (h2 : (img.phdr i).memsz ≠ 0)
    (h3 : (img.phdr i).outside img.len = false) :
    (∃ vs s', (budgetOf s.mach d).run (img.phdr i).pages = (vs,none) ∧ LoadRun live d s₀ (ms++vs) s' ∧
      loadUserSegment img (4096*d) i s = .fail ⟨s',headerReads img i ++ s.reads⟩) ∨
    ∃ s₁, PagesMapped d (img.phdr i).pages s.mach s₁ ∧ Ready live d s₀ s₁ (img.phdr i).pages ∧
      (budgetOf s.mach d).run (img.phdr i).pages = ((img.phdr i).pages,some (budgetOf s₁ d)) ∧
      loadUserSegment img (4096*d) i s =
        fillPages img (img.phdr i) (4096*d) (img.phdr i).pages ⟨s₁,headerReads img i ++ s.reads⟩ := by
  have hlt := fun w (hw : w ∈ (img.phdr i).pages) => (mem_pages hw).1
  have hsep := hr.separated h₀ hd
  rcases allocUserPages_run hsep hd hlt with ⟨s₁,hm,he,hb'⟩ | ⟨vs,s₁,s₂,hm,hlast,he,hb',hsub⟩
  · right
    refine ⟨s₁,hm,ready_pages h₀ hd hr hm,hb',?_⟩
    rw [Phdr.pages] at he
    simp [loadUserSegment,headerReads,h1,h2,h3,pagingAllocUserPages,he]
  · left
    refine ⟨vs,s₂,hb',?_,?_⟩
    · have hpages := hr.pages hm fun w hw => hlt w (hsub w hw)
      rcases hlast with rfl | ⟨k,hk,ht⟩
      · exact hpages
      · exact hpages.table hk ht
    · rw [Phdr.pages] at he
      simp [loadUserSegment,headerReads,h1,h2,h3,pagingAllocUserPages,he]

/-- A segment whose pages are all there is either filled or overruns its first page. -/
theorem fillSegment_cases {ms : List ℕ} {i : ℕ} {s₁ : Machine} {r : List Range}
    (hr : LoadRun live d s₀ ms s₁) (hready : Ready live d s₀ s₁ (img.phdr i).pages) :
    if Overlong (img.phdr i) ∧ (img.phdr i).nPages ≠ 0 then
      ∃ s', LoadRun live d s₀ ms s'.mach ∧ (∀ x, x ∈ s'.reads ↔ x ∈ segmentReads (img.phdr i) ∨ x ∈ r) ∧
        fillPages img (img.phdr i) (4096*d) (img.phdr i).pages ⟨s₁,r⟩ = .overrun s'
    else
      ∃ s', LoadRun live d s₀ ms s'.mach ∧ (∀ x, x ∈ s'.reads ↔ x ∈ segmentReads (img.phdr i) ∨ x ∈ r) ∧
        budgetOf s'.mach d = budgetOf s₁ d ∧ PagesFilled img (img.phdr i) d (img.phdr i).pages s₁.mem s'.mach.mem ∧
        s'.mach.pmm = s₁.pmm ∧
        fillPages img (img.phdr i) (4096*d) (img.phdr i).pages ⟨s₁,r⟩ = .next s' := by
  have hb := bounded_phdr img i
  by_cases hl : Overlong (img.phdr i) ∧ (img.phdr i).nPages ≠ 0
  · rw [if_pos hl]
    obtain ⟨rest,hpages⟩ := pages_head hb hl.2
    obtain ⟨_,_,g,hg⟩ := hready (img.phdr i).pageStart (by rw [hpages]; exact List.mem_cons_self)
    have he := fillPage_overlong img (s := ⟨s₁,r⟩) hb hl.1 hg.maps hg.data.low
    have hrun := hr.fill hg fun k hk => sameFrame_memset s₁.mem 0 hk
    refine ⟨⟨⟨memset s₁.mem (4096*g) 0 4096,s₁.pmm⟩,((img.phdr i).offset,(img.phdr i).filesz) :: r⟩,hrun,?_,?_⟩
    · intro x
      rw [segmentReads,if_pos hl]
      simp
    · rw [hpages]
      simp only [fillPages,he]
  · rw [if_neg hl]
    by_cases hn : (img.phdr i).nPages = 0
    · have hnil : (img.phdr i).pages = [] := by
        rw [Phdr.pages,hn]
        rfl
      refine ⟨⟨s₁,r⟩,hr,?_,rfl,?_,rfl,?_⟩
      · simp [segmentReads,hl,hnil,fillsReads]
      · rw [hnil]
        exact .nil _
      · rw [hnil]
        rfl
    · obtain ⟨m',r',he,hrs,hf⟩ := fillPages_next img (s := ⟨s₁,r⟩) hb (fun hl' => hl ⟨hl',hn⟩) hd
        (hr.separated h₀ hd) hready
      obtain ⟨hrun,hbud⟩ := LoadRun.filled h₀ hd hf hr hready
      refine ⟨⟨⟨m',s₁.pmm⟩,r'⟩,hrun,fun x => ?_,hbud,hf,rfl,he⟩
      rw [segmentReads,if_neg hl]
      exact hrs x

omit h₀ hd in
/-- A header that is skipped only adds to the reads. -/
theorem loadUserSegment_skip {i : ℕ} {s : UserLoad} (h : (img.phdr i).type ≠ 1 ∨ (img.phdr i).memsz = 0) :
    loadUserSegment img (4096*d) i s = .next ⟨s.mach,headerReads img i ++ s.reads⟩ := by
  by_cases h1 : (img.phdr i).type = 1
  · have h2 : (img.phdr i).memsz = 0 := h.resolve_left fun hn => hn h1
    simp [loadUserSegment,headerReads,h1,h2]
  · simp [loadUserSegment,headerReads,h1]

omit h₀ hd in
theorem loadUserSegment_refused {i : ℕ} {s : UserLoad} (h1 : (img.phdr i).type = 1)
    (h2 : (img.phdr i).memsz ≠ 0) (h3 : (img.phdr i).outside img.len = true) :
    loadUserSegment img (4096*d) i s = .fail ⟨s.mach,headerReads img i ++ s.reads⟩ := by
  simp [loadUserSegment,headerReads,h1,h2,h3]

omit h₀ hd in
theorem Follows.skip {i : ℕ} {ms : List ℕ} {s s' : UserLoad} {p : Plan} {r : LoadStep}
    (hf : Follows img live d s₀ ms ⟨s.mach,headerReads img i ++ s.reads⟩ p r s') :
    Follows img live d s₀ ms s (p.skip i) r s' := by
  refine ⟨hf.run,fun x => ?_,hf.ends⟩
  rw [hf.reads]
  simp only [Plan.skip,List.mem_append,List.mem_cons,exists_eq_or_imp,or_assoc,or_left_comm]

omit h₀ hd in
/-- A load that ends while header `i` is treated. -/
theorem Follows.last {i : ℕ} {ms vs : List ℕ} {s : UserLoad} {s' : Machine} {e : PlanEnd}
    (hr : LoadRun live d s₀ (ms++vs) s')
    (he : e.Matches d (.fail ⟨s',headerReads img i ++ s.reads⟩) ⟨s',headerReads img i ++ s.reads⟩) :
    Follows img live d s₀ ms s ⟨[i],[],vs,e⟩ (.fail ⟨s',headerReads img i ++ s.reads⟩)
      ⟨s',headerReads img i ++ s.reads⟩ := by
  refine ⟨hr,fun x => ?_,he⟩
  simp only [List.mem_append,List.mem_singleton,exists_eq_left,List.not_mem_nil,false_and,exists_false,or_false]
  exact or_comm

omit h₀ hd in
theorem Follows.segment {i : ℕ} {ms vs : List ℕ} {s s₁ s' : UserLoad} {p : Plan} {r : LoadStep}
    (hf : Follows img live d s₀ (ms++vs) s₁ p r s')
    (hreads : ∀ x, x ∈ s₁.reads ↔ x ∈ segmentReads (img.phdr i) ∨ x ∈ headerReads img i ++ s.reads) :
    Follows img live d s₀ ms s (p.segment i vs) r s' := by
  refine ⟨?_,fun x => ?_,hf.ends⟩
  · simpa [Plan.segment] using hf.run
  · rw [hf.reads,hreads]
    simp only [Plan.segment,List.mem_append,List.mem_cons,exists_eq_or_imp,or_assoc,or_left_comm]

/-- The segment loop goes as planned, from any state of the load. -/
theorem loadUserSegments_follows (img : Image) (is : List ℕ) {ms : List ℕ} {s : UserLoad}
    (hr : LoadRun live d s₀ ms s.mach) :
    ∃ s', Follows img live d s₀ ms s (planSegments img is (budgetOf s.mach d))
      (loadUserSegments img (4096*d) is s) s' := by
  induction is generalizing ms s with
  | nil =>
    refine ⟨s,?_,?_,rfl,rfl⟩
    · simpa [planSegments] using hr
    · simp [planSegments]
  | cons i is ih =>
    by_cases hskip : (img.phdr i).type ≠ 1 ∨ (img.phdr i).memsz = 0
    · obtain ⟨s',hf⟩ := ih (s := ⟨s.mach,headerReads img i ++ s.reads⟩) hr
      simp only [planSegments,if_pos hskip,loadUserSegments,loadUserSegment_skip hskip]
      exact ⟨s',hf.skip⟩
    · obtain ⟨h1,h2⟩ := not_or.mp hskip
      rw [not_not] at h1
      cases h3 : (img.phdr i).outside img.len with
      | true =>
        simp only [planSegments,if_neg hskip,h3,if_true,loadUserSegments,loadUserSegment_refused h1 h2 h3]
        exact ⟨_,.last (by simpa using hr) rfl⟩
      | false =>
        rcases loadUserSegment_cases h₀ hd hr h1 h2 h3 with ⟨vs,s',hb,hrun,he⟩ | ⟨s₁,hm,hready,hb,he⟩
        · simp only [planSegments,if_neg hskip,h3,Bool.false_eq_true,if_false,hb,loadUserSegments,he]
          exact ⟨_,.last hrun rfl⟩
        · have hrun₁ := hr.pages hm fun w hw => (mem_pages hw).1
          have hfill := fillSegment_cases h₀ hd (r := headerReads img i ++ s.reads) hrun₁ hready
          simp only [planSegments,if_neg hskip,h3,Bool.false_eq_true,if_false,hb,loadUserSegments,he]
          split at hfill
          · rename_i hl
            obtain ⟨s',hrun,hreads,he'⟩ := hfill
            rw [if_pos hl,he']
            refine ⟨s',hrun,fun x => ?_,rfl⟩
            rw [hreads]
            simp only [List.mem_append,List.mem_singleton,exists_eq_left,or_assoc,or_comm]
          · rename_i hl
            obtain ⟨s',hrun,hreads,hbud,_,_,he'⟩ := hfill
            obtain ⟨s'',hf⟩ := ih hrun
            rw [if_neg hl,he']
            rw [hbud] at hf
            exact ⟨s'',hf.segment hreads⟩

end Segment

/-! ## Segments after which the loop goes on -/

section Next
variable {K : KernelLayout} {live : List ℕ} {d : ℕ} {s : Machine}

theorem pagesMapped_of_alloc (hs : Separated K s live) (hd : d ∈ live) {vs : List ℕ} (hvs : ∀ v ∈ vs, v < 2^32)
    {s' : Machine} (he : allocUserPages (4096*d) vs s = (true,s')) : PagesMapped d vs s s' := by
  rcases allocUserPages_run hs hd hvs with ⟨s₁,hm,he',-⟩ | ⟨_,_,s₂,-,-,he',-⟩
  · rw [he'] at he
    cases he
    exact hm
  · rw [he'] at he
    cases he

theorem loadUserSegment_allocated {img : Image} {i : ℕ} (h1 : (img.phdr i).type = 1) (h2 : (img.phdr i).memsz ≠ 0)
    (h3 : (img.phdr i).outside img.len = false) {x : UserLoad} {ok : Bool} {s₁ : Machine}
    (he : allocUserPages (4096*d) (img.phdr i).pages x.mach = (ok,s₁)) : loadUserSegment img (4096*d) i x =
      if ok then fillPages img (img.phdr i) (4096*d) (img.phdr i).pages ⟨s₁,headerReads img i++x.reads⟩
      else .fail ⟨s₁,headerReads img i++x.reads⟩ := by
  rw [Phdr.pages] at he
  cases ok <;> simp [loadUserSegment,headerReads,h1,h2,h3,pagingAllocUserPages,he]

/-- Whether the copy of a mapped segment overruns does not depend on the machine. -/
theorem segment_fill {img : Image} {i : ℕ} (hs : Separated K s live) (hd : d ∈ live) {s₁ : Machine}
    (hm : PagesMapped d (img.phdr i).pages s s₁) (r : List Range) :
    if Overlong (img.phdr i) ∧ (img.phdr i).nPages ≠ 0 then
      ∃ x, fillPages img (img.phdr i) (4096*d) (img.phdr i).pages ⟨s₁,r⟩ = .overrun x
    else ∃ x, fillPages img (img.phdr i) (4096*d) (img.phdr i).pages ⟨s₁,r⟩ = .next x ∧
      PagesFilled img (img.phdr i) d (img.phdr i).pages s₁.mem x.mach.mem ∧ x.mach.pmm = s₁.pmm := by
  have hrun : LoadRun live d s ([]++(img.phdr i).pages) s₁ := LoadRun.start.pages hm (fun w hw => (mem_pages hw).1)
  have hfill := fillSegment_cases hs hd (r := r) hrun (ready_pages hs hd .start hm)
  by_cases hover : Overlong (img.phdr i) ∧ (img.phdr i).nPages ≠ 0
  · rw [if_pos hover] at hfill ⊢
    obtain ⟨x,-,-,he⟩ := hfill
    exact ⟨x,he⟩
  · rw [if_neg hover] at hfill ⊢
    obtain ⟨x,-,-,-,hf,hp,he⟩ := hfill
    exact ⟨x,he,hf,hp⟩

/-- The pages of segment `i` were mapped on the way from `s` to `s₁` and filled on the way to `s'`. -/
structure SegmentDone (img : Image) (live : List ℕ) (d i : ℕ) (s s₁ s' : Machine) : Prop where
  type : (img.phdr i).type = 1
  memsz : (img.phdr i).memsz ≠ 0
  inside : (img.phdr i).outside img.len = false
  fits : ¬ (Overlong (img.phdr i) ∧ (img.phdr i).nPages ≠ 0)
  alloc : allocUserPages (4096*d) (img.phdr i).pages s = (true,s₁)
  mapped : PagesMapped d (img.phdr i).pages s s₁
  ready : Ready live d s s₁ (img.phdr i).pages
  filled : PagesFilled img (img.phdr i) d (img.phdr i).pages s₁.mem s'.mem
  pmm : s'.pmm = s₁.pmm

theorem loadUserSegment_next {img : Image} {i : ℕ} {a a' : UserLoad} (hs : Separated K a.mach live) (hd : d ∈ live)
    (he : loadUserSegment img (4096*d) i a = .next a') :
    (((img.phdr i).type ≠ 1 ∨ (img.phdr i).memsz = 0) ∧ a'.mach = a.mach) ∨
    ∃ s₁, SegmentDone img live d i a.mach s₁ a'.mach := by
  by_cases hskip : (img.phdr i).type ≠ 1 ∨ (img.phdr i).memsz = 0
  · rw [loadUserSegment_skip hskip] at he
    cases he
    exact Or.inl ⟨hskip,rfl⟩
  · obtain ⟨h1,h2⟩ := not_or.mp hskip
    rw [not_not] at h1
    right
    cases h3 : (img.phdr i).outside img.len with
    | true =>
      rw [loadUserSegment_refused h1 h2 h3] at he
      cases he
    | false =>
      rcases halloc : allocUserPages (4096*d) (img.phdr i).pages a.mach with ⟨ok,s₁⟩
      rw [loadUserSegment_allocated h1 h2 h3 halloc] at he
      cases ok with
      | false => cases he
      | true =>
        rw [if_pos rfl] at he
        have hm := pagesMapped_of_alloc hs hd (fun w hw => (mem_pages hw).1) halloc
        have hfill := segment_fill hs hd hm (headerReads img i++a.reads)
        by_cases hover : Overlong (img.phdr i) ∧ (img.phdr i).nPages ≠ 0
        · rw [if_pos hover] at hfill
          obtain ⟨x,hx⟩ := hfill
          rw [hx] at he
          cases he
        · rw [if_neg hover] at hfill
          obtain ⟨x,hx,hf,hpmm⟩ := hfill
          rw [hx] at he
          cases he
          exact ⟨s₁,h1,h2,h3,hover,halloc,hm,ready_pages hs hd .start hm,hf,hpmm⟩

end Next

/-- What `elf_load_user` returns at the end of a load; `none` when a copy left its frame. -/
def PlanEnd.result (img : Image) : PlanEnd → Option ℕ
  | .loaded _ => some img.eEntry
  | .refused => some 0
  | .outOfMemory => some 0
  | .overrun => none

/-- The whole of `elf_load_user` goes as planned. -/
theorem elfLoadUser_plan {K : KernelLayout} {live : List ℕ} {d : ℕ} {s₀ : Machine}
    (h₀ : Separated K s₀ live) (hd : d ∈ live) (img : Image) :
    (elfLoadUser img (4096*d) s₀).1 = (plan img (budgetOf s₀ d)).ending.result img ∧
    LoadRun live d s₀ (plan img (budgetOf s₀ d)).pages (elfLoadUser img (4096*d) s₀).2.mach ∧
    (∀ b, (plan img (budgetOf s₀ d)).ending = .loaded b →
      budgetOf (elfLoadUser img (4096*d) s₀).2.mach d = b) ∧
    ∀ x, x ∈ (elfLoadUser img (4096*d) s₀).2.reads ↔ (ehdrSize ≤ img.len ∧ x = (0,ehdrSize)) ∨
      (∃ i ∈ (plan img (budgetOf s₀ d)).visited, x ∈ headerReads img i) ∨
      ∃ i ∈ (plan img (budgetOf s₀ d)).copied, x ∈ segmentReads (img.phdr i) := by
  have hpos : 4096*d ≠ 0 := by
    have := h₀.not_low hd (r := .dir) rfl (n := 0) (by simp only [lowFrames]; omega)
    omega
  by_cases hlen : img.len < ehdrSize
  · have hle : ¬ ehdrSize ≤ img.len := by omega
    simp [elfLoadUser,plan,hlen,hle,PlanEnd.result,LoadRun.start]
  · have hle : ehdrSize ≤ img.len := by omega
    cases hok : img.headerOk with
    | false => simp [elfLoadUser,plan,hlen,hle,hok,hpos,PlanEnd.result,LoadRun.start]
    | true =>
      obtain ⟨s',hf⟩ := loadUserSegments_follows h₀ hd img (List.range img.ePhnum)
        (s := ⟨s₀,[(0,ehdrSize)]⟩) .start
      have hplan : plan img (budgetOf s₀ d) = planSegments img (List.range img.ePhnum) (budgetOf s₀ d) := by
        simp [plan,hlen,hok]
      have hfail : loadUserSegments img (4096*d) (List.range img.ePhnum) ⟨s₀,[(0,ehdrSize)]⟩ = .fail s' →
          elfLoadUser img (4096*d) s₀ = (some 0,s') := by
        intro he
        simp [elfLoadUser,hlen,hok,hpos,he]
      have hends := hf.ends
      have hrun := hf.run
      have hreads := hf.reads
      rw [hplan]
      dsimp only at hends hrun hreads
      generalize planSegments img (List.range img.ePhnum) (budgetOf s₀ d) = p at *
      obtain ⟨visited,copied,pages,ending⟩ := p
      have hreads' : ∀ x, x ∈ s'.reads ↔ (ehdrSize ≤ img.len ∧ x = (0,ehdrSize)) ∨
          (∃ i ∈ visited, x ∈ headerReads img i) ∨ ∃ i ∈ copied, x ∈ segmentReads (img.phdr i) := by
        intro x
        rw [hreads]
        simp [hle]
      cases ending with
      | loaded b =>
        have hload : elfLoadUser img (4096*d) s₀ = (some img.eEntry,s') := by
          simp [elfLoadUser,hlen,hok,hpos,hends.1]
        rw [hload]
        exact ⟨rfl,hrun,fun b' hb' => by cases hb'; exact hends.2,hreads'⟩
      | refused =>
        rw [hfail hends]
        exact ⟨rfl,hrun,fun _ hb' => (by cases hb'),hreads'⟩
      | outOfMemory =>
        rw [hfail hends]
        exact ⟨rfl,hrun,fun _ hb' => (by cases hb'),hreads'⟩
      | overrun =>
        have hload : elfLoadUser img (4096*d) s₀ = (none,s') := by
          simp [elfLoadUser,hlen,hok,hpos,show loadUserSegments img _ _ _ = .overrun s' from hends]
        rw [hload]
        exact ⟨rfl,hrun,fun _ hb' => (by cases hb'),hreads'⟩

open SpaceLifecycle in
theorem oneDirectory_budget : budgetOf oneDirectory.mach firstDirectory = ⟨7935,{0,1}⟩ := by
  obtain ⟨q,ht,he⟩ := oneDirectory_spec
  rw [he,budget_freshDir sampleLayout _ ht,bootedSystem_freeCount]

end VesperOS.LoadPlan
