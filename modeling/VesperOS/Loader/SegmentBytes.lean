import VesperOS.Loader.ImageContents

/-! # The bytes of one segment

One iteration of the segment loop of `elf_load_user`. Whatever the machine was before it,
the page-rounded range of the segment holds the file part at its addresses and zeros
around it when the iteration has allocated all of its pages and filled them.
-/
namespace VesperOS.SegmentBytes
open ByteMemory FrameAllocator Paging AddressSpaces Translation ElfImage PageFill LoadPlan ImageContents
open FrameBalance SpaceLifecycle

/-- A loadable segment above 8 MB whose sums do not wrap, with its file part inside the image. -/
structure Loadable (img : Image) (ph : Phdr) : Prop where
  type : ph.type = 1
  sizes : ph.filesz ≤ ph.memsz
  bottom : 0x800000 ≤ ph.vaddr
  top : ph.vaddr+ph.memsz+0xFFF < 2^32
  inside : ph.offset+ph.filesz ≤ img.len

/-- Every page of the segment is mapped to a frame that was free before. -/
def Allocated (ph : Phdr) (d : ℕ) (s s' : Machine) : Prop :=
  ∀ v ∈ ph.pages, ∃ g, Maps s'.mem d v g ∧ pmmIsUsed s.pmm g = false

/-- Through the frame that `phys_of_virt` gives for its page, every address of the page-rounded range has its byte of
the file or 0. -/
def RangeFilled (img : Image) (ph : Phdr) (pd : ℕ) (m : Mem) : Prop :=
  ∀ a, ph.pageStart ≤ a → a < ph.pageEnd → physOfVirt m pd a ≠ 0 ∧
    m (physOfVirt m pd a+a % 4096) =
      if ph.vaddr ≤ a ∧ a < ph.vaddr+ph.filesz then img.bytes.getD (ph.offset+(a-ph.vaddr)) 0 else 0

section Range
variable {img : Image} {ph : Phdr} (hseg : Loadable img ph)
include hseg

theorem pageEnd_eq : ph.pageEnd = (ph.vaddr+ph.memsz+0xFFF)/4096*4096 := by
  unfold Phdr.pageEnd
  rw [Nat.mod_eq_of_lt hseg.top]
  rfl

/-- The pages of the rounded range; the sums do not wrap. -/
theorem mem_pages_rounded {v : ℕ} : v ∈ ph.pages ↔
    v % 4096 = 0 ∧ ph.vaddr/4096 ≤ v/4096 ∧ v/4096 < (ph.vaddr+ph.memsz+0xFFF)/4096 := by
  have htop := hseg.top
  have hs : ph.pageStart = ph.vaddr/4096*4096 := rfl
  have hn : ph.nPages = (ph.vaddr+ph.memsz+0xFFF)/4096-ph.vaddr/4096 := by
    unfold Phdr.nPages
    rw [pageEnd_eq hseg,hs]
    omega
  simp only [Phdr.pages,pagesFrom,List.mem_map,List.mem_range,hn,hs]
  constructor
  · rintro ⟨j,hj,rfl⟩
    omega
  · rintro ⟨h1,h2,h3⟩
    exact ⟨v/4096-ph.vaddr/4096,by omega,by omega⟩

theorem page_mem {a : ℕ} (hlo : ph.pageStart ≤ a) (hhi : a < ph.pageEnd) : a/4096*4096 ∈ ph.pages := by
  have hs : ph.pageStart = ph.vaddr/4096*4096 := rfl
  rw [hs] at hlo
  rw [pageEnd_eq hseg] at hhi
  rw [mem_pages_rounded hseg]
  omega

theorem page_high {v : ℕ} (hv : v ∈ ph.pages) : 0x800000 ≤ v ∧ v+4096 < 2^32 := by
  have htop := hseg.top
  have hbottom := hseg.bottom
  have hpage := (mem_pages_rounded hseg).mp hv
  omega

/-- A byte of the range is the byte of the page that the loader fills. -/
theorem pageByte_eq {a : ℕ} (hv : a/4096*4096 ∈ ph.pages) : pageByte img ph (a/4096*4096) (a % 4096) =
    if ph.vaddr ≤ a ∧ a < ph.vaddr+ph.filesz then img.bytes.getD (ph.offset+(a-ph.vaddr)) 0 else 0 := by
  have htop := hseg.top
  have hsizes := hseg.sizes
  have hinside := hseg.inside
  have hpage := (page_high hseg hv).2
  unfold pageByte
  rw [show a/4096*4096+a % 4096 = a by omega]
  by_cases hf : ph.vaddr ≤ a ∧ a < ph.vaddr+ph.filesz
  · have hfrom : FromFile ph (a/4096*4096) a := ⟨by omega,hpage,hf⟩
    have hoff : ph.offset+(a-ph.vaddr) < img.len := by omega
    have hmod : (ph.offset+(a-ph.vaddr)) % 2^32 = ph.offset+(a-ph.vaddr) := Nat.mod_eq_of_lt (hoff.trans img.len_lt)
    rw [if_pos hfrom,if_pos hf]
    unfold Image.view
    rw [hmod,if_pos hoff]
  · have hfrom : ¬ FromFile ph (a/4096*4096) a := fun h => hf h.2.2
    rw [if_neg hfrom,if_neg hf]

end Range

section Iteration
variable {K : KernelLayout} {live : List ℕ} {d i : ℕ} {img : Image} {s s' : UserLoad}

/-- Distinct pages have distinct frames, so the bytes of each page are still there when all of them are filled. -/
theorem allFilled_of_done {s₁ : Machine} (hdone : SegmentDone img live d i s.mach s₁ s'.mach)
    (h : Separated K s.mach live) (hd : d ∈ live) (hseg : Loadable img (img.phdr i)) :
    AllFilled img (img.phdr i) K live d (img.phdr i).pages s₁.pmm s₁.mem s'.mach.mem := by
  have h₁ := hdone.mapped.separated h hd fun w hw => (mem_pages hw).1
  exact ImageContents.allFilled hdone.filled hd h₁ hdone.ready (fun v hv => (page_high hseg hv).1) (pages_pairwise _)

/-- An iteration that does not skip its header and goes on has allocated all pages. -/
theorem allocated_of_next (h : Separated K s.mach live) (hd : d ∈ live) (hseg : Loadable img (img.phdr i))
    (hmem : (img.phdr i).memsz ≠ 0) (he : loadUserSegment img (4096*d) i s = .next s') :
    Allocated (img.phdr i) d s.mach s'.mach := by
  rcases loadUserSegment_next h hd he with ⟨hskip,_⟩ | ⟨s₁,hdone⟩
  · rcases hskip with h1 | h2
    · exact absurd hseg.type h1
    · exact absurd h2 hmem
  · intro v hv
    obtain ⟨hlt,_,g,hg⟩ := hdone.ready v hv
    exact ⟨g,((allFilled_of_done hdone h hd hseg).maps v g hlt).mpr hg.maps,hg.fresh⟩

/-- A skipped header allocates nothing. -/
theorem skipped_not_allocated (h : Separated K s.mach live) (hd : d ∈ live) (hseg : Loadable img (img.phdr i))
    {v : ℕ} (hv : v ∈ (img.phdr i).pages) : ¬ Allocated (img.phdr i) d s.mach s.mach := by
  intro hall
  obtain ⟨g,hmaps,hfree⟩ := hall v hv
  have hused := (h.owned d hd _ g (Maps.holds hmaps (mem_pages hv).1 (page_high hseg hv).1)).2.2
  rw [hused] at hfree
  cases hfree

/-- After an iteration with all pages allocated the whole page-rounded range is right. -/
theorem segment_range_filled (h : Separated K s.mach live) (hd : d ∈ live) (hseg : Loadable img (img.phdr i))
    (he : loadUserSegment img (4096*d) i s = .next s') (hall : Allocated (img.phdr i) d s.mach s'.mach) :
    RangeFilled img (img.phdr i) (4096*d) s'.mach.mem := by
  intro a hlo hhi
  have hv := page_mem hseg hlo hhi
  rcases loadUserSegment_next h hd he with ⟨_,hsame⟩ | ⟨s₁,hdone⟩
  · rw [hsame] at hall
    exact absurd hall (skipped_not_allocated h hd hseg hv)
  · obtain ⟨hlt,_,g,hg⟩ := hdone.ready _ hv
    have hfilled := allFilled_of_done hdone h hd hseg
    have hmaps : Maps s'.mach.mem d a g := maps_samePage (by omega) ((hfilled.maps _ g hlt).mpr hg.maps)
    have hlow := hg.data.low
    rw [hmaps.physOfVirt]
    refine ⟨?_,?_⟩
    · simp only [lowFrames] at hlow
      omega
    · rw [hfilled.bytes _ hv g hg.maps (a % 4096) (Nat.mod_lt a (by decide)),pageByte_eq hseg hv]

end Iteration

/-- One segment that starts inside of a page and ends with cleared memory on the next one. -/
def straddlingImage : Image := ⟨imageBytes 0x1000800 [⟨1,0,0x1000800,84,0x1000⟩],fun _ => 0,by decide⟩

theorem loadable_straddling : straddlingImage.phdr 0 = ⟨1,0,0x1000800,84,0x1000⟩ ∧
    Loadable straddlingImage (straddlingImage.phdr 0) := by
  have h0 : straddlingImage.phdr 0 = ⟨1,0,0x1000800,84,0x1000⟩ := by decide +kernel
  have hlen : straddlingImage.len = 84 := by decide +kernel
  rw [h0]
  exact ⟨rfl,rfl,by decide,by decide,by decide,by rw [hlen]; decide⟩

/-- An accepted image with one program header is one iteration. -/
theorem next_single {img : Image} {pd e : ℕ} {mach : Machine} (hn : img.ePhnum = 1)
    (he : (elfLoadUser img pd mach).1 = some e) (hne : e ≠ 0) :
    ∃ s : UserLoad, s.mach = mach ∧ loadUserSegment img pd 0 s = .next (elfLoadUser img pd mach).2 := by
  refine ⟨⟨mach,[(0,ehdrSize)]⟩,rfl,?_⟩
  have hload := elfLoadUser_accepted he hne
  rw [hn,List.range_one,loadUserSegments] at hload
  cases hstep : loadUserSegment img pd 0 ⟨mach,[(0,ehdrSize)]⟩ with
  | next s =>
    rw [hstep] at hload
    exact hload
  | fail s =>
    rw [hstep] at hload
    cases hload
  | overrun s =>
    rw [hstep] at hload
    cases hload

theorem next_straddling : ∃ s : UserLoad, s.mach = oneDirectory.mach ∧
    loadUserSegment straddlingImage (4096*firstDirectory) 0 s =
      .next (elfLoadUser straddlingImage (4096*firstDirectory) oneDirectory.mach).2 := by
  have hn : straddlingImage.ePhnum = 1 := by decide +kernel
  have haccepted : (elfLoadUser straddlingImage (4096*firstDirectory) oneDirectory.mach).1 = some 0x1000800 := by
    obtain ⟨hres,-,-,-⟩ := elfLoadUser_plan oneDirectory_separated (List.mem_singleton_self _) straddlingImage
    rw [hres,oneDirectory_budget]
    decide +kernel
  exact next_single hn haccepted (by decide)

theorem range_filled_straddling : RangeFilled straddlingImage (straddlingImage.phdr 0) (4096*firstDirectory)
    (elfLoadUser straddlingImage (4096*firstDirectory) oneDirectory.mach).2.mach.mem := by
  obtain ⟨hph,hseg⟩ := loadable_straddling
  have hd : firstDirectory ∈ [firstDirectory] := List.mem_singleton_self _
  have hmem : (straddlingImage.phdr 0).memsz ≠ 0 := by
    rw [hph]
    decide
  obtain ⟨s,hmach,hnext⟩ := next_straddling
  have hsep : Separated sampleLayout s.mach [firstDirectory] := by
    rw [hmach]
    exact oneDirectory_separated
  exact segment_range_filled hsep hd hseg hnext (allocated_of_next hsep hd hseg hmem hnext)

end VesperOS.SegmentBytes
