import VesperOS.Loader.FrameBalance

/-! # What a loaded image looks like from user mode

Every segment gets new frames for all of its pages, also for a page that an
earlier segment has used. So each page shows what the last segment that covers
it has left there; the invariant of the segment loop says just that.
-/
namespace VesperOS.ImageContents
open ByteMemory FrameAllocator Paging AddressSpaces AllocationBudget Translation ElfImage PageFill LoadPlan
open FrameBalance SpaceLifecycle

/-! ## Frames that a request leaves alone -/

section Keep
variable {K : KernelLayout} {live : List ℕ} {d : ℕ}

theorem pageMapped_sameFrame {s s' : Machine} (h : Separated K s live) (hd : d ∈ live) {v g : ℕ}
    (hv : v < 2^32) (hm : PageMapped d v s s') (hu : pmmIsUsed s.pmm g = true) (hg : DataFrame s live g) :
    SameFrame s.mem s'.mem g := by
  obtain ⟨s₁,f,q,hr,hf,rfl⟩ := hm
  have hi : v/4194304 < 1024 := by omega
  obtain ⟨h₁,hp⟩ := h.tableReady hd hi hr
  obtain ⟨_,hg₁⟩ := dataFrame_tableReady h hd hi hr hu hg
  have hready : SameFrame s.mem s₁.mem g := by
    rcases hr with ⟨_,rfl⟩ | ⟨_,_,t,q',ht,rfl⟩
    · exact SameFrame.refl _ _
    · exact sameFrame_linkTable s.mem hi (fun he => hg.dir (he ▸ hd)) (ht.ne hu)
  refine hready.trans (sameFrame_linkPage _ (by omega) ?_)
  rcases h₁.present_cases hd hi hp with ht | ⟨h2,he⟩
  · exact (hg₁.table d hd _ _ ht).symm
  · rw [he]
    have h3 := K.tables_low
    have h4 := hg.low
    omega

theorem pagesMapped_sameFrame {vs : List ℕ} {s s' : Machine} (hm : PagesMapped d vs s s')
    (h : Separated K s live) (hd : d ∈ live) (hvs : ∀ v ∈ vs, v < 2^32) {g : ℕ}
    (hu : pmmIsUsed s.pmm g = true) (hg : DataFrame s live g) : SameFrame s.mem s'.mem g := by
  induction hm with
  | nil => exact SameFrame.refl _ _
  | @cons v vs s s₁ s' hv _ ih =>
    have hvlt := hvs v List.mem_cons_self
    obtain ⟨f,e⟩ := pageMapped_effect h hd hvlt hv
    exact (pageMapped_sameFrame h hd hvlt hv hu hg).trans
      (ih (h.pageMapped hd hvlt hv) (fun w hw => hvs w (List.mem_cons_of_mem _ hw)) (e.mono g hu)
        (e.keepsData g hu hg))

end Keep

/-! ## All pages of a segment -/

/-- The outcome of filling pages that lie on different frames. -/
structure AllFilled (img : Image) (ph : Phdr) (K : KernelLayout) (live : List ℕ) (d : ℕ) (vs : List ℕ)
    (p : Pmm) (m m' : Mem) : Prop where
  separated : Separated K ⟨m',p⟩ live
  maps : ∀ w f, w < 2^32 → (Maps m' d w f ↔ Maps m d w f)
  data : ∀ f, DataFrame ⟨m,p⟩ live f → DataFrame ⟨m',p⟩ live f
  others : ∀ k, (∀ w ∈ vs, ¬ Maps m d w k) → SameFrame m m' k
  bytes : ∀ v ∈ vs, ∀ g, Maps m d v g → ∀ x < 4096, m' (4096*g+x) = pageByte img ph v x

theorem samePage_of_maps {K : KernelLayout} {live : List ℕ} {d : ℕ} {s : Machine} (h : Separated K s live)
    (hd : d ∈ live) {v w g : ℕ} (hv : v < 2^32) (hw : w < 2^32) (hv8 : 0x800000 ≤ v) (hw8 : 0x800000 ≤ w)
    (h1 : Maps s.mem d v g) (h2 : Maps s.mem d w g) : v/4096 = w/4096 := by
  have hrole := (h.unique hd hd (Maps.holds h1 hv hv8) (Maps.holds h2 hw hw8)).2
  injection hrole with h3 h4
  exact samePage_iff.mp ⟨h3,h4⟩

theorem allFilled {img : Image} {ph : Phdr} {K : KernelLayout} {live : List ℕ} {d : ℕ} {s₀ : Machine}
    {vs : List ℕ} {p : Pmm} {m m' : Mem} (hf : PagesFilled img ph d vs m m') (hd : d ∈ live)
    (h : Separated K ⟨m,p⟩ live) (hr : Ready live d s₀ ⟨m,p⟩ vs) (hhigh : ∀ v ∈ vs, 0x800000 ≤ v)
    (hne : vs.Pairwise (fun v w => v/4096 ≠ w/4096)) : AllFilled img ph K live d vs p m m' := by
  induction hf with
  | nil m => exact ⟨h,fun _ _ _ => Iff.rfl,fun _ hf => hf,fun _ _ => SameFrame.refl _ _,by simp⟩
  | @cons v g vs m m₁ m' hm hfill _ ih =>
    obtain ⟨hlt,_,g',hg⟩ := hr v List.mem_cons_self
    obtain rfl : g = g' := hm.unique hg.maps
    obtain ⟨hhead,htail⟩ := List.pairwise_cons.mp hne
    have hrest : Ready live d s₀ ⟨m,p⟩ vs := fun w hw => hr w (List.mem_cons_of_mem v hw)
    have hiff : ∀ w f, w < 2^32 → (Maps m₁ d w f ↔ Maps m d w f) := fun w f hw =>
      maps_dataFrame_iff h hg.data hfill.others hd hw
    have hall := ih (separated_dataFrame h hg.data hfill.others) (hrest.filled h hd hg hfill.others)
      (fun w hw => hhigh w (List.mem_cons_of_mem v hw)) htail
    -- the frame just filled belongs to no later page
    have hown : ∀ w ∈ vs, ¬ Maps m₁ d w g := by
      intro w hw hmw
      obtain ⟨hwlt,_⟩ := hrest w hw
      exact hhead w hw (samePage_of_maps h hd hlt hwlt (hhigh v List.mem_cons_self)
        (hhigh w (List.mem_cons_of_mem v hw)) hm ((hiff w g hwlt).mp hmw))
    constructor
    · exact hall.separated
    · intro w f hw
      rw [hall.maps w f hw,hiff w f hw]
    · intro f hf
      exact hall.data f (dataFrame_dataFrame hg.data hfill.others hf)
    · intro k hk
      have hkg : k ≠ g := by
        rintro rfl
        exact hk v List.mem_cons_self hm
      refine (hfill.others k hkg).trans (hall.others k fun w hw hmw => ?_)
      exact hk w (List.mem_cons_of_mem v hw) ((hiff w k (hrest w hw).1).mp hmw)
    · intro w hw f hmf x hx
      rcases List.mem_cons.mp hw with rfl | hw
      · obtain rfl := hmf.unique hm
        rw [hall.others f hown (4096*f+x) (by omega)]
        exact hfill.bytes x hx
      · exact hall.bytes w hw f ((hiff w f (hrest w hw).1).mpr hmf) x hx

/-! ## The last segment that covers a page -/

/-- Segment `i` is loaded and page `v` is one of its pages. -/
def Covers (img : Image) (i v : ℕ) : Prop :=
  (img.phdr i).type = 1 ∧ (img.phdr i).memsz ≠ 0 ∧ v ∈ (img.phdr i).pages

/-- After the first `n` headers every page shows its last segment. -/
def Written (img : Image) (live : List ℕ) (d n : ℕ) (s : Machine) : Prop :=
  ∀ v i, i < n → Covers img i v → (∀ j, i < j → j < n → ¬ Covers img j v) →
    ∃ g, Maps s.mem d v g ∧ pmmIsUsed s.pmm g = true ∧ DataFrame s live g ∧
      ∀ x < 4096, s.mem (4096*g+x) = pageByte img (img.phdr i) v x

/-- Every page of the loaded segments lies above 8 MB. -/
def HighPages (img : Image) : Prop := ∀ i < img.ePhnum, ∀ v, Covers img i v → 0x800000 ≤ v

section Loop
variable {K : KernelLayout} {live : List ℕ} {d : ℕ} {img : Image} (hd : d ∈ live)
include hd

/-- One segment whose pages were all mapped and filled. -/
theorem written_filled {n : ℕ} {s s₁ : Machine} {m' : Mem} (h : Separated K s live)
    (hm : PagesMapped d (img.phdr n).pages s s₁) (hr : Ready live d s s₁ (img.phdr n).pages)
    (hf : PagesFilled img (img.phdr n) d (img.phdr n).pages s₁.mem m')
    (hhigh : ∀ v ∈ (img.phdr n).pages, 0x800000 ≤ v) (h1 : (img.phdr n).type = 1)
    (h2 : (img.phdr n).memsz ≠ 0) (hw : Written img live d n s) :
    Separated K ⟨m',s₁.pmm⟩ live ∧ Written img live d (n+1) ⟨m',s₁.pmm⟩ := by
  have hlt := fun w (hw : w ∈ (img.phdr n).pages) => (mem_pages hw).1
  have h₁ := hm.separated h hd hlt
  have hall := allFilled hf hd h₁ hr hhigh (pages_pairwise _)
  refine ⟨hall.separated,fun v i hi hcov hlast => ?_⟩
  by_cases hmem : v ∈ (img.phdr n).pages
  · -- the new segment is the last one on this page
    have hin : i = n := by
      by_contra hne
      exact hlast n (by omega) (by omega) ⟨h1,h2,hmem⟩
    subst hin
    obtain ⟨_,_,g,hg⟩ := hr v hmem
    exact ⟨g,(hall.maps v g (hlt v hmem)).mpr hg.maps,hg.used,hall.data g hg.data,hall.bytes v hmem g hg.maps⟩
  · have hin : i < n := by
      by_contra hge
      have : i = n := by omega
      exact hmem (this ▸ hcov.2.2)
    obtain ⟨hvlt,hval⟩ := mem_pages hcov.2.2
    obtain ⟨g,hmaps,hu,hdata,hbytes⟩ := hw v i hin hcov fun j hij hj => hlast j hij (by omega)
    obtain ⟨k1,k2,k3⟩ := PagesMapped.keeps hm h hd hlt
    have hother : ∀ w ∈ (img.phdr n).pages, v/4096 ≠ w/4096 := by
      intro w hw he
      obtain ⟨_,hwal⟩ := mem_pages hw
      exact hmem (by rwa [show v = w by omega])
    have hmaps₁ := k2 v g hvlt hother hmaps
    have hsame : SameFrame s₁.mem m' g := by
      refine hall.others g fun w hw hmw => ?_
      obtain ⟨_,_,f,hf⟩ := hr w hw
      obtain rfl := hmw.unique hf.maps
      have := hf.fresh
      rw [hu] at this
      cases this
    have hsame₀ := pagesMapped_sameFrame hm h hd hlt hu hdata
    refine ⟨g,(hall.maps v g hvlt).mpr hmaps₁,k1 g hu,hall.data g (k3 g hu hdata),fun x hx => ?_⟩
    rw [← hbytes x hx]
    exact (hsame₀.trans hsame) (4096*g+x) (by omega)

/-- One iteration of the segment loop that goes on. -/
theorem written_segment {n : ℕ} {s s' : UserLoad} (h : Separated K s.mach live)
    (hhigh : ∀ v, Covers img n v → 0x800000 ≤ v) (hw : Written img live d n s.mach)
    (he : loadUserSegment img (4096*d) n s = .next s') :
    Separated K s'.mach live ∧ Written img live d (n+1) s'.mach := by
  rcases loadUserSegment_next h hd he with ⟨hskip,hmach⟩ | ⟨s₁,hdone⟩
  · rw [hmach]
    refine ⟨h,fun v i hi hcov hlast => hw v i ?_ hcov fun j hij hj => hlast j hij (by omega)⟩
    by_contra hge
    have : i = n := by omega
    subst this
    rcases hskip with h1 | h2
    · exact h1 hcov.1
    · exact hcov.2.1 h2
  · have hwritten := written_filled hd h hdone.mapped hdone.ready hdone.filled
      (fun v hv => hhigh v ⟨hdone.type,hdone.memsz,hv⟩) hdone.type hdone.memsz hw
    rw [← hdone.pmm] at hwritten
    exact hwritten

/-- The whole loop, from header `n` on. -/
theorem written_segments (hhigh : HighPages img) (c : ℕ) {n : ℕ} {s s' : UserLoad} (hn : n + c ≤ img.ePhnum)
    (h : Separated K s.mach live) (hw : Written img live d n s.mach)
    (he : loadUserSegments img (4096*d) (List.range' n c) s = .next s') :
    Separated K s'.mach live ∧ Written img live d (n+c) s'.mach := by
  induction c generalizing n s with
  | zero =>
    simp only [List.range'_zero,loadUserSegments] at he
    cases he
    exact ⟨h,hw⟩
  | succ c ih =>
    rw [List.range'_succ,loadUserSegments] at he
    cases hs : loadUserSegment img (4096*d) n s with
    | next s₁ =>
      rw [hs] at he
      obtain ⟨h₁,hw₁⟩ := written_segment hd h (hhigh n (by omega)) hw hs
      have := ih (by omega) h₁ hw₁ he
      rwa [show n + 1 + c = n + (c+1) by omega] at this
    | fail s₁ =>
      rw [hs] at he
      cases he
    | overrun s₁ =>
      rw [hs] at he
      cases he

end Loop

/-! ## The image as the program sees it -/

/-- User mode reads `b` at address `a`: both entries carry all three flags. -/
def UserByte (m : Mem) (d a : ℕ) (b : UInt8) : Prop :=
  ∃ t g, entry m (4096*d) (a/4194304) = 4096*t+7 ∧ entry m (4096*t) (a/4096 % 1024) = 4096*g+7 ∧
    m (4096*g+a % 4096) = b

/-- Every byte of every segment is there, the rest of its memory cleared. -/
def ImageLoaded (img : Image) (d : ℕ) (m : Mem) : Prop :=
  ∀ i < img.ePhnum, (img.phdr i).type = 1 → ∀ k < (img.phdr i).memsz,
    UserByte m d ((img.phdr i).vaddr+k)
      (if k < (img.phdr i).filesz then img.view ((img.phdr i).offset+k) else 0)

/-- Segments between 8 MB and 4 GB that do not overlap. -/
structure WellPlaced (img : Image) : Prop where
  sizes : ∀ i < img.ePhnum, (img.phdr i).type = 1 → (img.phdr i).filesz ≤ (img.phdr i).memsz
  bottom : ∀ i < img.ePhnum, (img.phdr i).type = 1 → 0x800000 ≤ (img.phdr i).vaddr
  top : ∀ i < img.ePhnum, (img.phdr i).type = 1 → (img.phdr i).vaddr + (img.phdr i).memsz ≤ 2^32
  disjoint : ∀ i < img.ePhnum, ∀ j < img.ePhnum, i ≠ j → (img.phdr i).type = 1 → (img.phdr j).type = 1 →
    ∀ a, (img.phdr i).vaddr ≤ a → a < (img.phdr i).vaddr + (img.phdr i).memsz →
      (img.phdr j).vaddr ≤ a → ¬ a < (img.phdr j).vaddr + (img.phdr j).memsz

theorem UserByte.unique {m : Mem} {d a : ℕ} {b b' : UInt8} (h : UserByte m d a b) (h' : UserByte m d a b') :
    b = b' := by
  obtain ⟨t,g,h1,h2,rfl⟩ := h
  obtain ⟨t',g',h1',h2',rfl⟩ := h'
  obtain rfl : t = t' := by omega
  obtain rfl : g = g' := by omega
  rfl

/-- The pages of a segment that does not wrap. -/
theorem mem_pages_of_top {ph : Phdr} (h2 : 0 < ph.vaddr/4096)
    (h3 : ph.vaddr + ph.memsz ≤ 2^32) {v : ℕ} :
    v ∈ ph.pages ↔ v % 4096 = 0 ∧ ph.vaddr/4096 ≤ v/4096 ∧ v/4096 ≤ (ph.vaddr+ph.memsz-1)/4096 := by
  have hs : ph.pageStart = ph.vaddr/4096*4096 := rfl
  have he : ph.pageEnd = ((ph.vaddr+ph.memsz+0xFFF) % 2^32)/4096*4096 := rfl
  have hn : ph.nPages = (ph.vaddr+ph.memsz-1)/4096+1-ph.vaddr/4096 := by
    simp only [Phdr.nPages,hs,he]
    omega
  simp only [Phdr.pages,pagesFrom,List.mem_map,List.mem_range,hn,hs]
  constructor
  · rintro ⟨j,hj,rfl⟩
    omega
  · rintro ⟨h4,h5,h6⟩
    exact ⟨v/4096-ph.vaddr/4096,by omega,by omega⟩

section Placed
variable {img : Image} (hp : WellPlaced img)
include hp

theorem covers_iff {i v : ℕ} (hi : i < img.ePhnum) : Covers img i v ↔
    (img.phdr i).type = 1 ∧ (img.phdr i).memsz ≠ 0 ∧ v % 4096 = 0 ∧ (img.phdr i).vaddr/4096 ≤ v/4096 ∧
      v/4096 ≤ ((img.phdr i).vaddr+(img.phdr i).memsz-1)/4096 := by
  refine and_congr_right fun h1 => and_congr_right fun _ => ?_
  have hb := hp.bottom i hi h1
  exact mem_pages_of_top (by omega) (hp.top i hi h1)

theorem highPages : HighPages img := by
  intro i hi v hv
  obtain ⟨h1,_,_,h4,_⟩ := (covers_iff hp hi).mp hv
  have := hp.bottom i hi h1
  omega

theorem covers_byte {i k : ℕ} (hi : i < img.ePhnum) (h1 : (img.phdr i).type = 1)
    (hk : k < (img.phdr i).memsz) : Covers img i (((img.phdr i).vaddr+k)/4096*4096) := by
  rw [covers_iff hp hi]
  refine ⟨h1,by omega,by omega,by omega,by omega⟩

omit hp in
/-- Of the segments that cover a page there is a last one. -/
theorem exists_last {i v : ℕ} (hi : i < img.ePhnum) (hc : Covers img i v) :
    ∃ l, i ≤ l ∧ l < img.ePhnum ∧ Covers img l v ∧ ∀ j, l < j → j < img.ePhnum → ¬ Covers img j v := by
  classical
  have hle : i ≤ img.ePhnum - 1 := by omega
  have hmax := Nat.findGreatest_le (P := fun l => Covers img l v) (img.ePhnum-1)
  refine ⟨Nat.findGreatest (fun l => Covers img l v) (img.ePhnum-1),?_,by omega,?_,fun j hj hlt => ?_⟩
  · exact Nat.le_findGreatest (P := fun l => Covers img l v) hle hc
  · exact Nat.findGreatest_spec (P := fun l => Covers img l v) hle hc
  · exact Nat.findGreatest_is_greatest (P := fun l => Covers img l v) hj (by omega)

/-- Only the segment that contains an address puts file bytes there. -/
theorem fromFile_unique {i l a w : ℕ} (hi : i < img.ePhnum) (hl : l < img.ePhnum)
    (h1 : (img.phdr i).type = 1) (h2 : (img.phdr l).type = 1) (ha : (img.phdr i).vaddr ≤ a)
    (ha' : a < (img.phdr i).vaddr + (img.phdr i).memsz) (hf : FromFile (img.phdr l) w a) : l = i := by
  obtain ⟨_,_,h3,h4⟩ := hf
  have hs := hp.sizes l hl h2
  by_contra hne
  exact hp.disjoint i hi l hl (Ne.symm hne) h1 h2 a ha ha' h3 (by omega)

end Placed

theorem elfLoadUser_accepted {img : Image} {pd e : ℕ} {s : Machine} (he : (elfLoadUser img pd s).1 = some e)
    (hne : e ≠ 0) : loadUserSegments img pd (List.range img.ePhnum) ⟨s,[(0,ehdrSize)]⟩ =
      .next (elfLoadUser img pd s).2 := by
  unfold elfLoadUser at he ⊢
  split at he
  · exact absurd (Option.some.inj he).symm hne
  · rename_i h1
    rw [if_neg h1]
    split at he
    · rename_i h2
      rw [if_pos h2]
      cases hs : loadUserSegments img pd (List.range img.ePhnum) ⟨s,[(0,ehdrSize)]⟩ with
      | next s' => rfl
      | fail s' =>
        rw [hs] at he
        exact absurd (Option.some.inj he).symm hne
      | overrun s' =>
        rw [hs] at he
        cases he
    · exact absurd (Option.some.inj he).symm hne

/-- What user mode reads at an address of a segment: the last segment on that page decides. -/
theorem userByte_last {K : KernelLayout} {live : List ℕ} {d : ℕ} {s : Machine} {img : Image}
    (hp : WellPlaced img) (h : Separated K s live) (hd : d ∈ live) (hw : Written img live d img.ePhnum s)
    {i k : ℕ} (hi : i < img.ePhnum) (h1 : (img.phdr i).type = 1) (hk : k < (img.phdr i).memsz) :
    ∃ l, i ≤ l ∧ l < img.ePhnum ∧ Covers img l (((img.phdr i).vaddr+k)/4096*4096) ∧
      (∀ j, l < j → j < img.ePhnum → ¬ Covers img j (((img.phdr i).vaddr+k)/4096*4096)) ∧
      UserByte s.mem d ((img.phdr i).vaddr+k)
        (pageByte img (img.phdr l) (((img.phdr i).vaddr+k)/4096*4096) (((img.phdr i).vaddr+k) % 4096)) := by
  obtain ⟨l,hil,hl,hcl,hlast⟩ := exists_last hi (covers_byte hp hi h1 hk)
  obtain ⟨g,hm,_,_,hbytes⟩ := hw _ l hl hcl hlast
  have hbot := hp.bottom i hi h1
  have htop := hp.top i hi h1
  set a := (img.phdr i).vaddr+k with ha
  have hpde : a/4096*4096/4194304 = a/4194304 := by omega
  have hpti : a/4096*4096/4096 % 1024 = a/4096 % 1024 := by omega
  have hpres := hm.pde
  have hpte := hm.pte
  rw [pteOf,tableFrame,hpti,hpde] at hpte
  rw [hpde] at hpres
  refine ⟨l,hil,hl,hcl,hlast,entry s.mem (4096*d) (a/4194304)/4096,g,?_,hpte,hbytes _ (by omega)⟩
  exact (h.flagged d hd).tables _ _ ⟨by omega,by omega,hpres,rfl⟩

/-- The condition for byte `k` of the file part of segment `i`: the end of the
file part does not wrap, the byte does not lie on the last page of the address
space, and no later segment shares its page. -/
def Survives (img : Image) (i k : ℕ) : Prop :=
  (img.phdr i).vaddr + (img.phdr i).filesz < 2^32 ∧ ((img.phdr i).vaddr+k)/4096 < 2^20-1 ∧
  ∀ j < img.ePhnum, i < j → (img.phdr j).type = 1 → (img.phdr j).memsz ≠ 0 →
    ((img.phdr i).vaddr+k)/4096 < (img.phdr j).vaddr/4096 ∨
    ((img.phdr j).vaddr+(img.phdr j).memsz-1)/4096 < ((img.phdr i).vaddr+k)/4096

section Contents
variable {K : KernelLayout} {live : List ℕ} {d : ℕ} {s : Machine} {img : Image} (hp : WellPlaced img)
  (h : Separated K s live) (hd : d ∈ live) (hw : Written img live d img.ePhnum s)
include hp h hd hw

theorem survives_of_loaded (hload : ImageLoaded img d s.mem) {i k : ℕ} (hi : i < img.ePhnum)
    (h1 : (img.phdr i).type = 1) (hk : k < (img.phdr i).filesz)
    (hne : img.view ((img.phdr i).offset+k) ≠ 0) : Survives img i k := by
  have hs := hp.sizes i hi h1
  obtain ⟨l,_,hl,hcl,hlast,hbyte⟩ := userByte_last hp h hd hw hi h1 (k := k) (by omega)
  have hexp := hload i hi h1 k (by omega)
  rw [if_pos hk] at hexp
  have heq := hexp.unique hbyte
  have ha : ((img.phdr i).vaddr+k)/4096*4096 + ((img.phdr i).vaddr+k) % 4096 = (img.phdr i).vaddr+k := by omega
  rw [pageByte,ha] at heq
  split at heq
  · rename_i hf
    obtain rfl := fromFile_unique hp hi hl h1 hcl.1 (by omega) (by omega) hf
    refine ⟨hf.1,?_,fun j hj hlj hj1 hj2 => ?_⟩
    · have := hf.2.1
      omega
    · by_contra hcon
      refine hlast j hlj hj ((covers_iff hp hj).mpr ⟨hj1,hj2,by omega,by omega,by omega⟩)
  · exact absurd heq hne

theorem loaded_of_survives (hsv : ∀ i < img.ePhnum, (img.phdr i).type = 1 → ∀ k < (img.phdr i).filesz,
    img.view ((img.phdr i).offset+k) ≠ 0 → Survives img i k) : ImageLoaded img d s.mem := by
  intro i hi h1 k hk
  obtain ⟨l,hil,hl,hcl,hlast,hbyte⟩ := userByte_last hp h hd hw hi h1 hk
  have ha : ((img.phdr i).vaddr+k)/4096*4096 + ((img.phdr i).vaddr+k) % 4096 = (img.phdr i).vaddr+k := by omega
  rw [pageByte,ha] at hbyte
  by_cases hf : FromFile (img.phdr l) (((img.phdr i).vaddr+k)/4096*4096) ((img.phdr i).vaddr+k)
  · -- the last segment is the one that contains the address
    obtain rfl := fromFile_unique hp hi hl h1 hcl.1 (by omega) (by omega) hf
    rw [if_pos hf,Nat.add_sub_cancel_left] at hbyte
    rw [if_pos (by have := hf.2.2.2; omega)]
    exact hbyte
  · rw [if_neg hf] at hbyte
    by_cases hkf : k < (img.phdr i).filesz
    · rw [if_pos hkf]
      by_cases hz : img.view ((img.phdr i).offset+k) = 0
      · rw [hz]
        exact hbyte
      · obtain ⟨h2,h3,h4⟩ := hsv i hi h1 k hkf hz
        have hli : l = i := by
          by_contra hne
          obtain ⟨h5,h6,_,h8,h9⟩ := (covers_iff hp hl).mp hcl
          have := h4 l hl (by omega) h5 h6
          omega
        subst hli
        exact absurd ⟨h2,by omega,by omega,by omega⟩ hf
    · rw [if_neg hkf]
      exact hbyte

end Contents

theorem written_zero (img : Image) (live : List ℕ) (d : ℕ) (s : Machine) : Written img live d 0 s :=
  fun _ _ hi => absurd hi (Nat.not_lt_zero _)

theorem elfLoadUser_written {K : KernelLayout} {live : List ℕ} {d e : ℕ} {s : Machine} {img : Image}
    (h : Separated K s live) (hd : d ∈ live) (hp : WellPlaced img)
    (he : (elfLoadUser img (4096*d) s).1 = some e) (hne : e ≠ 0) :
    Separated K (elfLoadUser img (4096*d) s).2.mach live ∧
    Written img live d img.ePhnum (elfLoadUser img (4096*d) s).2.mach := by
  have hload := elfLoadUser_accepted he hne
  rw [List.range_eq_range'] at hload
  have := written_segments hd (highPages hp) img.ePhnum (by omega) h (written_zero img live d s) hload
  rwa [Nat.zero_add] at this

/-- An accepted image is reproduced exactly when every non-zero byte of the file
parts survives the rest of the load. -/
theorem elfLoadUser_imageLoaded_iff {K : KernelLayout} {live : List ℕ} {d e : ℕ} {s : Machine} {img : Image}
    (h : Separated K s live) (hd : d ∈ live) (hp : WellPlaced img)
    (he : (elfLoadUser img (4096*d) s).1 = some e) (hne : e ≠ 0) :
    ImageLoaded img d (elfLoadUser img (4096*d) s).2.mach.mem ↔
      ∀ i < img.ePhnum, (img.phdr i).type = 1 → ∀ k < (img.phdr i).filesz,
        img.view ((img.phdr i).offset+k) ≠ 0 → Survives img i k := by
  obtain ⟨h',hw⟩ := elfLoadUser_written h hd hp he hne
  constructor
  · intro hload i hi h1 k hk hz
    exact survives_of_loaded hp h' hd hw hload hi h1 hk hz
  · exact loaded_of_survives hp h' hd hw

theorem wellPlaced_userImage : WellPlaced userImage := by
  have hn : userImage.ePhnum = 1 := by decide +kernel
  have h0 : userImage.phdr 0 = ⟨1,0,0x1000000,84,84⟩ := by decide +kernel
  constructor
  all_goals
    intro i hi
    obtain rfl : i = 0 := by omega
  · rw [h0]
    decide
  · rw [h0]
    decide
  · rw [h0]
    decide
  · intro j hj hij
    omega

theorem accepted_userImage :
    (elfLoadUser userImage (4096*firstDirectory) oneDirectory.mach).1 = some 0x1000000 := by
  obtain ⟨hres,-,-,-⟩ := elfLoadUser_plan oneDirectory_separated (List.mem_singleton_self _) userImage
  rw [hres,oneDirectory_budget]
  decide +kernel

theorem imageLoaded_userImage :
    ImageLoaded userImage firstDirectory
      (elfLoadUser userImage (4096*firstDirectory) oneDirectory.mach).2.mach.mem := by
  have hn : userImage.ePhnum = 1 := by decide +kernel
  have h0 : userImage.phdr 0 = ⟨1,0,0x1000000,84,84⟩ := by decide +kernel
  refine (elfLoadUser_imageLoaded_iff oneDirectory_separated (List.mem_singleton_self _) wellPlaced_userImage
    accepted_userImage (by decide)).mpr ?_
  intro i hi _ k hk _
  obtain rfl : i = 0 := by omega
  rw [h0] at hk
  rw [Survives,h0,hn]
  dsimp only at hk ⊢
  refine ⟨by omega,by omega,fun j hj h0j => by omega⟩

theorem wellPlaced_sharedImage : WellPlaced sharedImage := by
  have hn : sharedImage.ePhnum = 2 := by decide +kernel
  have h0 : sharedImage.phdr 0 = ⟨1,0,0x1000000,84,84⟩ := by decide +kernel
  have h1 : sharedImage.phdr 1 = ⟨1,84,0x1000800,4,4⟩ := by decide +kernel
  constructor
  all_goals
    intro i hi
    obtain rfl | rfl : i = 0 ∨ i = 1 := by omega
  all_goals first
    | rw [h0]
      decide
    | rw [h1]
      decide
    | intro j hj hij
      obtain rfl | rfl : j = 0 ∨ j = 1 := by omega
      all_goals first
        | exact absurd rfl hij
        | rw [h0,h1]
          dsimp only
          omega

/-- The second segment's fresh frame hides the first segment. -/
theorem sharedImage_notLoaded :
    WellPlaced sharedImage ∧
    (elfLoadUser sharedImage (4096*firstDirectory) oneDirectory.mach).1 = some 0x1000000 ∧
    ¬ ImageLoaded sharedImage firstDirectory
      (elfLoadUser sharedImage (4096*firstDirectory) oneDirectory.mach).2.mach.mem := by
  have hn : sharedImage.ePhnum = 2 := by decide +kernel
  have h0 : sharedImage.phdr 0 = ⟨1,0,0x1000000,84,84⟩ := by decide +kernel
  have h1 : sharedImage.phdr 1 = ⟨1,84,0x1000800,4,4⟩ := by decide +kernel
  have hmagic : sharedImage.view 0 ≠ 0 := by decide +kernel
  have hd : firstDirectory ∈ [firstDirectory] := List.mem_singleton_self _
  have hacc : (elfLoadUser sharedImage (4096*firstDirectory) oneDirectory.mach).1 = some 0x1000000 := by
    obtain ⟨hres,-,-,-⟩ := elfLoadUser_plan oneDirectory_separated hd sharedImage
    rw [hres,oneDirectory_budget]
    decide +kernel
  refine ⟨wellPlaced_sharedImage,hacc,fun hload => ?_⟩
  obtain ⟨h',hw⟩ := elfLoadUser_written oneDirectory_separated hd wellPlaced_sharedImage hacc (by decide)
  have hs := survives_of_loaded wellPlaced_sharedImage h' hd hw hload (i := 0) (k := 0) (by omega)
    (by rw [h0]) (by rw [h0]; decide) (by rw [h0]; exact hmagic)
  have hlast := hs.2.2 1 (by omega) (by omega) (by rw [h1]) (by rw [h1]; decide)
  rw [h0,h1] at hlast
  dsimp only at hlast
  omega

end VesperOS.ImageContents
