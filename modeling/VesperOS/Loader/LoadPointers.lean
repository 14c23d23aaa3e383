import VesperOS.Loader.LoadPlan
import VesperOS.Memory.KernelPointers
import Mathlib.Data.List.GetD

/-! # Physical addresses that the user loader writes through

`elf_load_user` fills each page through the address that `phys_of_virt` returns, and the copy of the
file part goes on from there as long as its length says. As long as the free frames and the frames of
directories lie below 8 MB, so do all of its pointers, unless the copy of an overlong segment runs on
behind its frame. When a frame above 8 MB is free, an image with enough zeroed pages makes the loader
use it.
-/
namespace VesperOS.LoadPointers
open ByteMemory FrameAllocator Paging AddressSpaces Translation AllocationBudget ElfImage PageFill LoadPlan KernelPointers

/-- The addresses of `n` bytes from `a` on. -/
def bytesFrom (a n : ℕ) : List ℕ := (List.range n).map fun k => (a+k) % 2^32

/-- `phys_of_virt`, then the frame itself if there is one, and every byte that the copy stores to. -/
def fillPagePointers (ph : Phdr) (pd v : ℕ) (s : UserLoad) : List ℕ :=
  let phys := physOfVirt s.mach.mem pd v
  physOfVirtPointers s.mach.mem pd v ++
    if phys = 0 then [] else phys :: (ph.copyRange v).elim [] fun r => bytesFrom (phys+r.1) r.2.2

/-- With the copy of an overlong segment the list ends. -/
def fillPagesPointers (img : Image) (ph : Phdr) (pd : ℕ) : List ℕ → UserLoad → List ℕ
  | [], _ => []
  | v :: rest, s => fillPagePointers ph pd v s ++
    match fillPage img ph pd v s with
    | .next s => fillPagesPointers img ph pd rest s
    | _ => []

/-- A header that is skipped or refused uses none. -/
def segmentPointers (img : Image) (pd i : ℕ) (s : UserLoad) : List ℕ :=
  let ph := img.phdr i
  if ph.type ≠ 1 ∨ ph.memsz = 0 ∨ ph.outside img.len = true then []
  else
    let r := pagingAllocUserPages pd ph.pageStart ph.nPages s.mach
    allocUserPagesPointers pd ph.pages s.mach ++
      if r.1 = 0 then fillPagesPointers img ph pd ph.pages ⟨r.2,s.reads⟩ else []

def segmentsPointers (img : Image) (pd : ℕ) : List ℕ → UserLoad → List ℕ
  | [], _ => []
  | i :: rest, s => segmentPointers img pd i s ++
    match loadUserSegment img pd i s with
    | .next s => segmentsPointers img pd rest s
    | _ => []

def elfLoadUserPointers (img : Image) (pd : ℕ) (mach : Machine) : List ℕ :=
  if img.len < ehdrSize ∨ pd = 0 ∨ img.headerOk = false then []
  else segmentsPointers img pd (List.range img.ePhnum) ⟨mach,[(0,ehdrSize)]⟩

/-! ## Frames below 8 MB -/

/-- The copy of a segment that is not overlong stays in its frame. -/
theorem copyRange_fits {ph : Phdr} {v dst src n : ℕ} (hb : Bounded ph) (hv : v < 2^32) (hal : v % 4096 = 0)
    (hl : ¬ Overlong ph) (h : ph.copyRange v = some (dst,src,n)) : dst + n ≤ 4096 := by
  by_cases hw : ph.vaddr + ph.filesz < 2^32
  · rw [copyRange_of_lt hb hv hal hw] at h
    split at h
    · cases h
      omega
    · cases h
  · rw [copyRange_of_wrap hb hv hal (by omega) hl] at h
    cases h

theorem fillPagePointers_low {ph : Phdr} {d v g : ℕ} {s : UserLoad} (hb : Bounded ph) (hv : v < 2^32)
    (hal : v % 4096 = 0) (hl : ¬ Overlong ph) (hm : Maps s.mach.mem d v g) (hg : g < mappedFrames)
    (hwalk : ∀ p ∈ physOfVirtPointers s.mach.mem (4096*d) v, p < mappedEnd) :
    ∀ p ∈ fillPagePointers ph (4096*d) v s, p < mappedEnd := by
  have hbase := low_pointer hg
  unfold fillPagePointers
  dsimp only
  rw [hm.physOfVirt]
  intro p hp
  rcases List.mem_append.mp hp with hp | hp
  · exact hwalk p hp
  split at hp
  · exact absurd hp List.not_mem_nil
  rcases List.mem_cons.mp hp with rfl | hp
  · exact hbase
  cases hr : ph.copyRange v with
  | none =>
    rw [hr] at hp
    exact absurd hp List.not_mem_nil
  | some r =>
    obtain ⟨dst,src,n⟩ := r
    have hfit := copyRange_fits hb hv hal hl hr
    rw [hr] at hp
    obtain ⟨k,hk,rfl⟩ := List.mem_map.mp (show p ∈ bytesFrom (4096*g+dst) n from hp)
    rw [List.mem_range] at hk
    unfold mappedEnd at hbase ⊢
    unfold mappedFrames at hg
    omega

/-- The pointers of a segment that is requested. -/
theorem segmentPointers_eq {img : Image} {pd i : ℕ} {s : UserLoad} (h1 : (img.phdr i).type = 1)
    (h2 : (img.phdr i).memsz ≠ 0) (h3 : (img.phdr i).outside img.len = false) :
    segmentPointers img pd i s = allocUserPagesPointers pd (img.phdr i).pages s.mach ++
      if (allocUserPages pd (img.phdr i).pages s.mach).1 then
        fillPagesPointers img (img.phdr i) pd (img.phdr i).pages
          ⟨(allocUserPages pd (img.phdr i).pages s.mach).2,s.reads⟩
      else [] := by
  unfold segmentPointers
  dsimp only
  rw [if_neg (by simp [h1,h2,h3])]
  unfold pagingAllocUserPages
  rw [← Phdr.pages]
  generalize allocUserPages pd (img.phdr i).pages s.mach = r
  obtain ⟨ok,mach⟩ := r
  cases ok <;> rfl

theorem segmentPointers_none {img : Image} {pd i : ℕ} {s : UserLoad} (h : (img.phdr i).type ≠ 1 ∨
    (img.phdr i).memsz = 0 ∨ (img.phdr i).outside img.len = true) : segmentPointers img pd i s = [] := by
  unfold segmentPointers
  dsimp only
  rw [if_pos h]

section Low
variable {K : KernelLayout} {live : List ℕ} {d : ℕ} {s₀ : Machine} (h₀ : Separated K s₀ live) (hd : d ∈ live)
  (hl₀ : LowFrames s₀ live)
include h₀ hd hl₀

theorem low_loadRun {vs : List ℕ} {s : Machine} (hr : LoadRun live d s₀ vs s) : LowFrames s live := by
  induction hr with
  | start => exact hl₀
  | table hr hi ht ih => exact ih.tableReady (hr.separated h₀ hd) hd hi ht
  | page hr hv hm ih => exact ih.pageMapped (hr.separated h₀ hd) hd hv hm
  | fill _ hg hm ih => exact ih.dataFrame hg.data hm

omit h₀ in
theorem fillPages_pointers (img : Image) {ph : Phdr} (hb : Bounded ph) (hlong : ¬ Overlong ph) {vs : List ℕ}
    {s : UserLoad} (h : Separated K s.mach live) (hl : LowFrames s.mach live) (hr : Ready live d s₀ s.mach vs) :
    ∀ p ∈ fillPagesPointers img ph (4096*d) vs s, p < mappedEnd := by
  induction vs generalizing s with
  | nil => exact fun p hp => absurd hp List.not_mem_nil
  | cons v vs ih =>
    obtain ⟨hlt,hal,g,hg⟩ := hr v List.mem_cons_self
    intro p hp
    unfold fillPagesPointers at hp
    rcases List.mem_append.mp hp with hp | hp
    · exact fillPagePointers_low hb hlt hal hlong hg.maps (hl₀.free g hg.fresh) (physOfVirt_pointers h hl hd hlt) p hp
    · obtain ⟨m',he,hfill⟩ := fillPage_next img hb hlt hal hlong hg.maps hg.data.low
      have hrest : Ready live d s₀ s.mach vs := fun w hw => hr w (List.mem_cons_of_mem v hw)
      simp only [he] at hp
      exact ih (s := ⟨⟨m',s.mach.pmm⟩,_⟩) (separated_dataFrame h hg.data hfill.others)
        (hl.dataFrame hg.data hfill.others) (hrest.filled h hd hg hfill.others) p hp

theorem segments_pointers (img : Image) (is : List ℕ) {ms : List ℕ} {s : UserLoad}
    (hr : LoadRun live d s₀ ms s.mach) (hfits : (planSegments img is (budgetOf s.mach d)).ending ≠ .overrun) :
    ∀ p ∈ segmentsPointers img (4096*d) is s, p < mappedEnd := by
  induction is generalizing ms s with
  | nil => exact fun p hp => absurd hp List.not_mem_nil
  | cons i is ih =>
    have hsep := hr.separated h₀ hd
    have hlow := low_loadRun h₀ hd hl₀ hr
    intro p hp
    unfold segmentsPointers at hp
    by_cases hskip : (img.phdr i).type ≠ 1 ∨ (img.phdr i).memsz = 0
    · have hnone : segmentPointers img (4096*d) i s = [] :=
        segmentPointers_none (hskip.elim Or.inl fun h2 => Or.inr (Or.inl h2))
      rw [hnone,loadUserSegment_skip hskip,List.nil_append] at hp
      rw [planSegments,if_pos hskip] at hfits
      exact ih (s := ⟨s.mach,headerReads img i ++ s.reads⟩) hr hfits p hp
    · obtain ⟨h1,h2⟩ := not_or.mp hskip
      rw [not_not] at h1
      cases h3 : (img.phdr i).outside img.len with
      | true =>
        rw [segmentPointers_none (Or.inr (Or.inr h3)),loadUserSegment_refused h1 h2 h3] at hp
        exact absurd hp List.not_mem_nil
      | false =>
        have hlt := fun w (hw : w ∈ (img.phdr i).pages) => (mem_pages hw).1
        rw [segmentPointers_eq h1 h2 h3] at hp
        rcases allocUserPages_run hsep hd hlt with ⟨s₁,hm,he,hb⟩ | ⟨_,_,s₂,_,_,he,hb,_⟩
        · have hready := ready_pages h₀ hd hr hm
          have hfill := fillSegment_cases h₀ hd (r := headerReads img i ++ s.reads) (hr.pages hm hlt) hready
          rw [planSegments,if_neg hskip,h3,if_neg Bool.false_ne_true,hb] at hfits
          dsimp only at hfits
          by_cases hlong : Overlong (img.phdr i) ∧ (img.phdr i).nPages ≠ 0
          · rw [if_pos hlong] at hfits
            exact absurd rfl hfits
          rw [if_neg hlong] at hfits hfill
          obtain ⟨s',hrun,_,hbud,_,_,he'⟩ := hfill
          rw [he,loadUserSegment_allocated h1 h2 h3 he,if_pos rfl,if_pos rfl,he'] at hp
          rcases List.mem_append.mp hp with hp | hp
          · rcases List.mem_append.mp hp with hp | hp
            · exact allocUserPages_pointers hsep hlow hd hlt p hp
            · by_cases hn : (img.phdr i).nPages = 0
              · have hnil : (img.phdr i).pages = [] := by
                  rw [Phdr.pages,hn]
                  rfl
                rw [hnil] at hp
                exact absurd hp List.not_mem_nil
              · exact fillPages_pointers hd hl₀ img (bounded_phdr img i) (fun hl => hlong ⟨hl,hn⟩) (s := ⟨s₁,s.reads⟩)
                  (hm.separated hsep hd hlt) (LowFrames.pagesMapped hm hsep hlow hd hlt) hready p hp
          · refine ih hrun ?_ p hp
            rw [hbud]
            exact hfits
        · rw [he,loadUserSegment_allocated h1 h2 h3 he,if_neg Bool.false_ne_true,if_neg Bool.false_ne_true,
            List.append_nil,List.append_nil] at hp
          exact allocUserPages_pointers hsep hlow hd hlt p hp

theorem elfLoadUser_pointers (img : Image) (hfits : (plan img (budgetOf s₀ d)).ending ≠ .overrun) :
    ∀ p ∈ elfLoadUserPointers img (4096*d) s₀, p < mappedEnd := by
  unfold elfLoadUserPointers
  split
  · exact fun p hp => absurd hp List.not_mem_nil
  · rename_i hload
    rw [plan,if_neg (fun h => hload (h.imp_right Or.inr))] at hfits
    exact segments_pointers h₀ hd hl₀ img _ (s := ⟨s₀,[(0,ehdrSize)]⟩) .start hfits

end Low

/-! ## The copy of an overlong segment -/

theorem mem_bytesFrom {a n x : ℕ} (h1 : a ≤ x) (h2 : x < a+n) (hx : x < 2^32) : x ∈ bytesFrom a n := by
  refine List.mem_map.mpr ⟨x-a,List.mem_range.mpr (by omega),?_⟩
  rw [Nat.add_sub_cancel' h1,Nat.mod_eq_of_lt hx]

/-- Almost 4 GB from anywhere below 8 MB go beyond. -/
theorem fillPagePointers_overlong {ph : Phdr} {d g : ℕ} {s : UserLoad} (hb : Bounded ph) (hl : Overlong ph)
    (hm : Maps s.mach.mem d ph.pageStart g) (hg : lowFrames ≤ g) :
    ∃ p ∈ fillPagePointers ph (4096*d) ph.pageStart s, mappedEnd ≤ p := by
  have hpos : ¬ 4096*g = 0 := by
    unfold lowFrames at hg
    omega
  unfold fillPagePointers
  dsimp only
  rw [hm.physOfVirt,if_neg hpos,copyRange_overlong hb hl]
  by_cases hhigh : mappedEnd ≤ 4096*g
  · exact ⟨4096*g,List.mem_append_right _ List.mem_cons_self,hhigh⟩
  · refine ⟨mappedEnd,List.mem_append_right _ (List.mem_cons_of_mem _ (mem_bytesFrom ?_ ?_ (by decide))),le_rfl⟩
    · unfold mappedEnd at hhigh ⊢
      omega
    · change mappedEnd < 4096*g+ph.vaddr % 4096+ph.filesz
      unfold Overlong at hl
      unfold mappedEnd
      omega

section Overlong
variable {K : KernelLayout} {live : List ℕ} {d : ℕ} {s₀ : Machine} (h₀ : Separated K s₀ live) (hd : d ∈ live)
include h₀ hd

theorem segments_overrun (img : Image) (is : List ℕ) {ms : List ℕ} {s : UserLoad} (hr : LoadRun live d s₀ ms s.mach)
    (hover : (planSegments img is (budgetOf s.mach d)).ending = .overrun) :
    ∃ p ∈ segmentsPointers img (4096*d) is s, mappedEnd ≤ p := by
  induction is generalizing ms s with
  | nil => cases hover
  | cons i is ih =>
    have hsep := hr.separated h₀ hd
    unfold segmentsPointers
    rw [planSegments] at hover
    by_cases hskip : (img.phdr i).type ≠ 1 ∨ (img.phdr i).memsz = 0
    · rw [if_pos hskip] at hover
      obtain ⟨p,hp,hge⟩ := ih (s := ⟨s.mach,headerReads img i ++ s.reads⟩) hr hover
      rw [loadUserSegment_skip hskip]
      exact ⟨p,List.mem_append_right _ hp,hge⟩
    · obtain ⟨h1,h2⟩ := not_or.mp hskip
      rw [not_not] at h1
      rw [if_neg hskip] at hover
      cases h3 : (img.phdr i).outside img.len with
      | true =>
        rw [h3,if_pos rfl] at hover
        cases hover
      | false =>
        have hlt := fun w (hw : w ∈ (img.phdr i).pages) => (mem_pages hw).1
        rw [h3,if_neg Bool.false_ne_true] at hover
        rw [segmentPointers_eq h1 h2 h3]
        rcases allocUserPages_run hsep hd hlt with ⟨s₁,hm,he,hb⟩ | ⟨_,_,_,_,_,_,hb,_⟩
        · have hready := ready_pages h₀ hd hr hm
          rw [hb] at hover
          dsimp only at hover
          rw [he,if_pos rfl,loadUserSegment_allocated h1 h2 h3 he,if_pos rfl]
          by_cases hlong : Overlong (img.phdr i) ∧ (img.phdr i).nPages ≠ 0
          · obtain ⟨rest,hpages⟩ := pages_head (bounded_phdr img i) hlong.2
            obtain ⟨_,_,g,hg⟩ := hready (img.phdr i).pageStart (by rw [hpages]; exact List.mem_cons_self)
            obtain ⟨p,hp,hge⟩ := fillPagePointers_overlong (s := ⟨s₁,s.reads⟩) (bounded_phdr img i) hlong.1 hg.maps
              hg.data.low
            refine ⟨p,List.mem_append_left _ (List.mem_append_right _ ?_),hge⟩
            rw [hpages]
            exact List.mem_append_left _ hp
          · have hfill := fillSegment_cases h₀ hd (r := headerReads img i ++ s.reads) (hr.pages hm hlt) hready
            rw [if_neg hlong] at hover hfill
            obtain ⟨s',hrun,_,hbud,_,_,he'⟩ := hfill
            rw [← hbud] at hover
            obtain ⟨p,hp,hge⟩ := ih hrun hover
            rw [he']
            exact ⟨p,List.mem_append_right _ hp,hge⟩
        · rw [hb] at hover
          cases hover

theorem elfLoadUser_overrun (img : Image) (hover : (plan img (budgetOf s₀ d)).ending = .overrun) :
    ∃ p ∈ elfLoadUserPointers img (4096*d) s₀, mappedEnd ≤ p := by
  have hpd : 4096*d ≠ 0 := by
    have := (h₀.owned d hd .dir d rfl).1
    unfold lowFrames at this
    omega
  unfold elfLoadUserPointers
  rw [plan] at hover
  split at hover
  · cases hover
  · rename_i hload
    rw [if_neg (fun h => hload (h.imp_right fun h => h.resolve_left hpd))]
    exact segments_overrun h₀ hd img _ (s := ⟨s₀,[(0,ehdrSize)]⟩) .start hover

end Overlong

/-- Without an overlong segment no copy leaves its frame. -/
theorem planSegments_fits {img : Image} {is : List ℕ} (h : ∀ i ∈ is, ¬ Overlong (img.phdr i)) (b : Budget) :
    (planSegments img is b).ending ≠ .overrun := by
  induction is generalizing b with
  | nil => exact fun he => (nomatch he)
  | cons i is ih =>
    have hrest := ih fun j hj => h j (List.mem_cons_of_mem i hj)
    intro he
    rw [planSegments] at he
    split at he
    · exact hrest b he
    · split at he
      · cases he
      · split at he
        · cases he
        · rw [if_neg (fun hl => h i List.mem_cons_self hl.1)] at he
          exact hrest _ he

theorem plan_fits {img : Image} (h : ∀ i < img.ePhnum, ¬ Overlong (img.phdr i)) (b : Budget) :
    (plan img b).ending ≠ .overrun := by
  unfold plan
  split
  · exact fun he => (nomatch he)
  · exact planSegments_fits (fun i hi => h i (List.mem_range.mp hi)) b

/-- Every page of a plan is one of a segment. -/
theorem planSegments_pages {img : Image} {is : List ℕ} {b : Budget} {v : ℕ} (hv : v ∈ (planSegments img is b).pages) :
    ∃ i ∈ is, v ∈ (img.phdr i).pages := by
  induction is generalizing b with
  | nil => cases hv
  | cons i is ih =>
    have hrest : ∀ b', v ∈ (planSegments img is b').pages → ∃ j ∈ i :: is, v ∈ (img.phdr j).pages := by
      intro b' h
      obtain ⟨j,hj,hvj⟩ := ih h
      exact ⟨j,List.mem_cons_of_mem i hj,hvj⟩
    rw [planSegments] at hv
    split at hv
    · exact hrest b hv
    · split at hv
      · cases hv
      · split at hv
        · exact ⟨i,List.mem_cons_self,run_subset hv⟩
        · rename_i b' _
          split at hv
          · exact ⟨i,List.mem_cons_self,hv⟩
          · rcases List.mem_append.mp hv with h | h
            · exact ⟨i,List.mem_cons_self,h⟩
            · exact hrest b' h

theorem plan_pages {img : Image} {b : Budget} {v : ℕ} (hv : v ∈ (plan img b).pages) :
    ∃ i < img.ePhnum, v ∈ (img.phdr i).pages := by
  unfold plan at hv
  split at hv
  · cases hv
  · obtain ⟨i,hi,h⟩ := planSegments_pages hv
    exact ⟨i,List.mem_range.mp hi,h⟩

/-! ## An image of zeroed pages -/

/-- The bytes before `p_memsz`, and those behind it. -/
def bssHead : List UInt8 := ehdrBytes 0x800000 phdrSize 1 ++
  (bytes32 1 ++ bytes32 0 ++ bytes32 0x800000 ++ bytes32 0x800000 ++ bytes32 0)
theorem bssHead_length : bssHead.length = 72 := by decide

/-- One segment of `n` pages at 8 MB with no file part. -/
def bssImage (n : ℕ) : Image :=
  ⟨imageBytes 0x800000 [⟨1,0,0x800000,0,4096*n⟩],fun _ => 0,by
    change 84 < 2^32
    decide⟩

theorem bss_bytes (n : ℕ) : (bssImage n).bytes = bssHead ++ (bytes32 (4096*n) ++ (bytes32 7 ++ bytes32 4096)) := by
  simp [bssImage,bssHead,imageBytes,phdrBytes,List.append_assoc]

theorem bss_len (n : ℕ) : (bssImage n).len = 84 := by
  unfold Image.len
  rw [bss_bytes,List.length_append,bssHead_length]
  simp [bytes32,bytes16]

theorem bss_view_head (n : ℕ) {off : ℕ} (h : off < 72) : (bssImage n).view off = bssHead.getD off 0 := by
  unfold Image.view
  have hlen : off < bssHead.length := by
    rw [bssHead_length]
    exact h
  rw [Nat.mod_eq_of_lt (by omega),bss_len,if_pos (by omega),bss_bytes,List.getD_append _ _ _ _ hlen]

theorem bss_view_memsz (n : ℕ) {k : ℕ} (h : k < 4) : (bssImage n).view (72+k) = (bytes32 (4096*n)).getD k 0 := by
  unfold Image.view
  have hlen : bssHead.length ≤ 72+k := by
    rw [bssHead_length]
    omega
  have hword : k < (bytes32 (4096*n)).length := by
    simpa [bytes32,bytes16] using h
  rw [Nat.mod_eq_of_lt (by omega),bss_len,if_pos (by omega),bss_bytes,List.getD_append_right _ _ _ _ hlen,
    bssHead_length,Nat.add_sub_cancel_left,List.getD_append _ _ _ _ hword]

theorem bss_read32 (n : ℕ) {off : ℕ} (h : off + 3 < 72) :
    read32 (bssImage n).view off = read32 (fun x => bssHead.getD x 0) off := by
  unfold read32
  rw [bss_view_head n (by omega),bss_view_head n (by omega),bss_view_head n (by omega),bss_view_head n (by omega)]

theorem bss_read16 (n : ℕ) {off : ℕ} (h : off + 1 < 72) :
    read16 (bssImage n).view off = read16 (fun x => bssHead.getD x 0) off := by
  unfold read16
  rw [bss_view_head n (by omega),bss_view_head n (by omega)]

theorem bss_phoff (n : ℕ) : (bssImage n).ePhoff = 52 := by
  unfold Image.ePhoff
  rw [bss_read32 n (by omega)]
  decide

theorem bss_phnum (n : ℕ) : (bssImage n).ePhnum = 1 := by
  unfold Image.ePhnum
  rw [bss_read16 n (by omega)]
  decide

theorem bss_headerOk (n : ℕ) : (bssImage n).headerOk = true := by
  have ht : (bssImage n).eType = 2 := by
    unfold Image.eType
    rw [bss_read16 n (by omega)]
    decide
  have hm : (bssImage n).eMachine = 3 := by
    unfold Image.eMachine
    rw [bss_read16 n (by omega)]
    decide
  unfold Image.headerOk
  rw [ht,hm,bss_phoff,bss_phnum,bss_len,bss_view_head n (by omega),bss_view_head n (by omega),
    bss_view_head n (by omega),bss_view_head n (by omega),bss_view_head n (by omega),bss_view_head n (by omega)]
  decide

theorem bss_phdr {n : ℕ} (hn : 4096*n < 2^32) : (bssImage n).phdr 0 = ⟨1,0,0x800000,0,4096*n⟩ := by
  have hoff : (bssImage n).phdrOff 0 = 52 := by
    unfold Image.phdrOff
    rw [bss_phoff,Nat.zero_mul]
    rfl
  have hmemsz : read32 (bssImage n).view 72 = 4096*n := by
    have h0 := bss_view_memsz n (k := 0) (by omega)
    have h1 := bss_view_memsz n (k := 1) (by omega)
    have h2 := bss_view_memsz n (k := 2) (by omega)
    have h3 := bss_view_memsz n (k := 3) (by omega)
    unfold read32
    rw [h0,h1,h2,h3]
    simp only [bytes32,bytes16,List.cons_append,List.nil_append,List.getD_cons_zero,List.getD_cons_succ,
      UInt8.toNat_ofNat']
    omega
  unfold Image.phdr
  rw [hoff,bss_read32 n (by omega),bss_read32 n (by omega),bss_read32 n (by omega),bss_read32 n (by omega),
    hmemsz]
  rw [Phdr.mk.injEq]
  exact ⟨by decide,by decide,by decide,by decide,rfl⟩

section Bss
variable {n : ℕ} (hn : n < 2^19)
include hn

theorem bss_pages : ((bssImage n).phdr 0).pages = pagesFrom 0x800000 n := by
  have hstart : Phdr.pageStart ⟨1,0,0x800000,0,4096*n⟩ = 0x800000 := by
    unfold Phdr.pageStart pageBase
    dsimp only
  have hcount : Phdr.nPages ⟨1,0,0x800000,0,4096*n⟩ = n := by
    unfold Phdr.nPages Phdr.pageEnd pageBase
    rw [hstart]
    dsimp only
    omega
  rw [bss_phdr (by omega),Phdr.pages,hstart,hcount]

/-- The loader's pointers for this image are those of one request and one fill loop. -/
theorem bss_pointers (hpos : n ≠ 0) {pd : ℕ} (hpd : pd ≠ 0) (s : Machine) :
    elfLoadUserPointers (bssImage n) pd s = allocUserPagesPointers pd (pagesFrom 0x800000 n) s ++
      if (allocUserPages pd (pagesFrom 0x800000 n) s).1 then
        fillPagesPointers (bssImage n) ((bssImage n).phdr 0) pd (pagesFrom 0x800000 n)
          ⟨(allocUserPages pd (pagesFrom 0x800000 n) s).2,[(0,ehdrSize)]⟩
      else [] := by
  have hph := bss_phdr (n := n) (by omega)
  have hlen : ¬ (bssImage n).len < ehdrSize := by
    rw [bss_len]
    decide
  have hout : ((bssImage n).phdr 0).outside (bssImage n).len = false := by
    rw [hph,bss_len]
    rfl
  unfold elfLoadUserPointers
  rw [if_neg (by simp [hlen,hpd,bss_headerOk]),bss_phnum]
  have hone : List.range 1 = [0] := rfl
  rw [hone]
  unfold segmentsPointers
  rw [segmentPointers_eq (by rw [hph]) (by rw [hph]; dsimp only; omega) hout,bss_pages hn]
  have hrest : ∀ r : LoadStep, (match r with
      | .next s => segmentsPointers (bssImage n) pd [] s
      | _ => []) = [] := by
    intro r
    cases r <;> rfl
  rw [hrest,List.append_nil]

end Bss

/-! ## A free frame above 8 MB is reached -/

theorem allocUserPages_append {pd : ℕ} {vs : List ℕ} {s s' : Machine} (he : allocUserPages pd vs s = (true,s'))
    (ws : List ℕ) : allocUserPages pd (vs++ws) s = allocUserPages pd ws s' ∧
      allocUserPagesPointers pd (vs++ws) s = allocUserPagesPointers pd vs s ++ allocUserPagesPointers pd ws s' := by
  induction vs generalizing s with
  | nil =>
    cases he
    exact ⟨rfl,rfl⟩
  | cons v vs ih =>
    simp only [allocUserPages,allocUserPagesPointers,List.cons_append] at he ⊢
    rcases hstep : allocUserPage pd v s with ⟨ok,s₁⟩
    rw [hstep] at he
    cases ok with
    | false => cases he
    | true =>
      obtain ⟨h1,h2⟩ := ih he
      refine ⟨h1,?_⟩
      simp only [if_true,h2,List.append_assoc]

/-- Every page of a segment that is not overlong is filled through its frame. -/
theorem fillPages_reach {K : KernelLayout} {live : List ℕ} {d : ℕ} {s₀ : Machine} (img : Image) {ph : Phdr}
    (hb : Bounded ph) (hlong : ¬ Overlong ph) (hd : d ∈ live) {vs : List ℕ} {s : UserLoad}
    (h : Separated K s.mach live) (hr : Ready live d s₀ s.mach vs) {v g : ℕ} (hv : v ∈ vs)
    (hm : Maps s.mach.mem d v g) : 4096*g ∈ fillPagesPointers img ph (4096*d) vs s := by
  induction vs generalizing s with
  | nil => cases hv
  | cons w vs ih =>
    obtain ⟨hlt,hal,f,hf⟩ := hr w List.mem_cons_self
    have hlow := hf.data.low
    have hpos : ¬ 4096*f = 0 := by
      unfold lowFrames at hlow
      omega
    unfold fillPagesPointers
    rcases List.mem_cons.mp hv with rfl | hv
    · obtain rfl : g = f := hm.unique hf.maps
      apply List.mem_append_left
      unfold fillPagePointers
      dsimp only
      rw [hm.physOfVirt,if_neg hpos]
      exact List.mem_append_right _ List.mem_cons_self
    · apply List.mem_append_right
      obtain ⟨m',he,hfill⟩ := fillPage_next img hb hlt hal hlong hf.maps hf.data.low
      have hvlt := (hr v (List.mem_cons_of_mem w hv)).1
      have hrest : Ready live d s₀ s.mach vs := fun x hx => hr x (List.mem_cons_of_mem w hx)
      simp only [he]
      exact ih (s := ⟨⟨m',s.mach.pmm⟩,_⟩) (separated_dataFrame h hf.data hfill.others)
        (hrest.filled h hd hf hfill.others) hv (maps_dataFrame h hf.data hfill.others hd hvlt hm)

theorem high_pointer {g : ℕ} (hg : mappedFrames ≤ g) : mappedEnd ≤ 4096*g := by
  unfold mappedFrames at hg
  unfold mappedEnd
  omega

theorem free_of_takes {p q : Pmm} {f t : ℕ} (ht : Takes p q t) (hne : f ≠ t) (hf : pmmIsUsed p f = false) :
    pmmIsUsed q f = false := by
  rw [ht.bits,hf]
  simp [hne]

section Reach
variable {K : KernelLayout} {live : List ℕ} {d f : ℕ} (hd : d ∈ live) (hhigh : mappedFrames ≤ f)
  (hlt : f < totalFrames)
include hd hhigh hlt

omit hd hhigh in
theorem freeCount_pos {p : Pmm} (hf : pmmIsUsed p f = false) : freeCount p ≠ 0 := by
  unfold freeCount
  rw [Finset.card_ne_zero]
  exact ⟨f,mem_freeSet.mpr ⟨hlt,hf⟩⟩

/-- The table of a region is made ready through a high pointer, or without touching the frame. -/
theorem ensureTable_reach {s : Machine} (h : Separated K s live) (hf : pmmIsUsed s.pmm f = false) (i : ℕ) :
    (∃ p ∈ ensureTablePointers (4096*d) i s, mappedEnd ≤ p) ∨
    ∃ s₁, ensureTable (4096*d) i s = (true,s₁) ∧ TableReady d i s s₁ ∧ pmmIsUsed s₁.pmm f = false ∧
      freeCount s₁.pmm ≤ freeCount s.pmm := by
  cases hp : isPresent (entry s.mem (4096*d) i) with
  | true =>
    refine Or.inr ⟨s,?_,Or.inl ⟨hp,rfl⟩,hf,le_rfl⟩
    simp [ensureTable,hp]
  | false =>
    rcases allocFrame_cases h.sound with ⟨h0,_⟩ | ⟨t,q,he,ht⟩
    · exact absurd h0 (freeCount_pos hlt hf)
    · have hpos : ¬ 4096*t = 0 := ht.addr_ne_zero
      by_cases hthigh : mappedFrames ≤ t
      · left
        refine ⟨4096*t,?_,high_pointer hthigh⟩
        simp [ensureTablePointers,hp,he,hpos]
      · right
        have hi2 : 2 ≤ i := by
          rcases h.ensureTable_cases (i := i) hd with ⟨hp',_⟩ | ⟨_,hi2,_⟩
          · rw [hp] at hp'
            cases hp'
          · exact hi2
        have hcount := ht.count
        refine ⟨⟨linkTable s.mem d i t,q⟩,?_,Or.inr ⟨hp,hi2,t,q,ht,rfl⟩,free_of_takes ht (by omega) hf,?_⟩
        · simp only [ensureTable,hp,Bool.false_eq_true,if_false,he,if_neg hpos,user_flags,linkTable]
        · dsimp only
          omega

theorem allocUserPage_reach {s : Machine} (h : Separated K s live) (hf : pmmIsUsed s.pmm f = false) {v : ℕ}
    (hv : v < 2^32) :
    (∃ p ∈ allocUserPagePointers (4096*d) v s, mappedEnd ≤ p) ∨
    ∃ s' g, allocUserPage (4096*d) v s = (true,s') ∧ Maps s'.mem d v g ∧
      freeCount s'.pmm + 1 ≤ freeCount s.pmm ∧ (mappedFrames ≤ g ∨ pmmIsUsed s'.pmm f = false) := by
  have hi : v/4194304 < 1024 := by omega
  rcases ensureTable_reach hd hhigh hlt h hf (v/4194304) with ⟨p,hp,hge⟩ | ⟨s₁,he,hr,hf₁,hle⟩
  · exact Or.inl ⟨p,List.mem_append_left _ hp,hge⟩
  · right
    obtain ⟨h₁,hpres⟩ := h.tableReady hd hi hr
    rcases h₁.enterFrame_cases (d := d) (i := v/4194304) (j := v/4096 % 1024) with ⟨h0,_⟩ | ⟨g,q,hg,hent⟩
    · exact absurd h0 (freeCount_pos hlt hf₁)
    · have hcount := hg.count
      refine ⟨⟨linkPage s₁.mem (tableFrame s₁.mem d (v/4194304)) (v/4096 % 1024) g,q⟩,g,?_,
        maps_entered h₁ hd hv hpres hg,by dsimp only; omega,?_⟩
      · simp only [allocUserPage,he,hent,tableFrame]
      · by_cases hghigh : mappedFrames ≤ g
        · exact Or.inl hghigh
        · exact Or.inr (free_of_takes hg (by omega) hf₁)

/-- Page by page, until a high frame is used as a table or filled as a page. -/
theorem bss_reach {s : Machine} (h : Separated K s live) (hf : pmmIsUsed s.pmm f = false) (n : ℕ) (hn : n < 2^19) :
    (∃ m < 2^19, ∃ p ∈ elfLoadUserPointers (bssImage m) (4096*d) s, mappedEnd ≤ p) ∨
    ∃ s', allocUserPages (4096*d) (pagesFrom 0x800000 n) s = (true,s') ∧ pmmIsUsed s'.pmm f = false ∧
      freeCount s'.pmm + n ≤ freeCount s.pmm := by
  induction n with
  | zero =>
    have hnil : pagesFrom 0x800000 0 = [] := rfl
    rw [hnil]
    refine Or.inr ⟨s,?_,hf,by omega⟩
    simp only [allocUserPages]
  | succ n ih =>
    rcases ih (by omega) with hfound | ⟨s',he,hf',hcount⟩
    · exact Or.inl hfound
    · have hpages : pagesFrom 0x800000 (n+1) = pagesFrom 0x800000 n ++ [0x800000+n*4096] := by
        unfold pagesFrom
        rw [List.range_succ,List.map_append,List.map_singleton,Nat.mod_eq_of_lt (by omega)]
      have hpd : 4096*d ≠ 0 := by
        have := (h.owned d hd .dir d rfl).1
        unfold lowFrames at this
        omega
      have hall : ∀ k, ∀ v ∈ pagesFrom 0x800000 k, v < 2^32 := fun k v hv => SpaceLifecycle.pagesFrom_lt hv
      have h' : Separated K s' live := by
        have hkept := h.allocUserPages hd (hall n)
        rw [he] at hkept
        exact hkept
      obtain ⟨halloc,hpointers⟩ := allocUserPages_append he [0x800000+n*4096]
      rw [← hpages] at halloc hpointers
      have hlist := bss_pointers hn (Nat.succ_ne_zero n) hpd s
      rcases allocUserPage_reach hd hhigh hlt h' hf' (v := 0x800000+n*4096) (by omega) with
        ⟨p,hp,hge⟩ | ⟨s₂,g,hstep,hmap,hless,hcase⟩
      · refine Or.inl ⟨n+1,hn,p,?_,hge⟩
        rw [hlist,hpointers]
        apply List.mem_append_left
        apply List.mem_append_right
        unfold allocUserPagesPointers
        exact List.mem_append_left _ hp
      · have hsucc : allocUserPages (4096*d) (pagesFrom 0x800000 (n+1)) s = (true,s₂) := by
          rw [halloc]
          simp only [allocUserPages,hstep]
        rcases hcase with hghigh | hf₂
        · -- the whole request succeeds, so the frame is filled
          refine Or.inl ⟨n+1,hn,4096*g,?_,high_pointer hghigh⟩
          rcases h.allocUserPages_cases hd (hall (n+1)) with ⟨s₃,hm,he₃⟩ | ⟨_,_,_,_,_,_,_,_,he₃⟩
          · rw [hsucc] at he₃
            cases he₃
            have hready := @ready_pages _ _ _ _ h hd ((bssImage (n+1)).phdr 0) _ _ _ .start (by rw [bss_pages hn]; exact hm)
            rw [bss_pages hn] at hready
            rw [hlist,hsucc]
            apply List.mem_append_right
            refine fillPages_reach _ (bounded_phdr _ 0) ?_ hd (s := ⟨s₂,[(0,ehdrSize)]⟩)
              (hm.separated h hd (hall (n+1))) hready ?_ hmap
            · rw [bss_phdr (by omega)]
              unfold Overlong
              dsimp only
              omega
            · rw [hpages]
              exact List.mem_append_right _ (List.mem_singleton_self _)
          · rw [hsucc] at he₃
            cases he₃
        · exact Or.inr ⟨s₂,hsucc,hf₂,by omega⟩

theorem exists_high_pointer {s : Machine} (h : Separated K s live) (hf : pmmIsUsed s.pmm f = false) :
    ∃ m < 2^19, ∃ p ∈ elfLoadUserPointers (bssImage m) (4096*d) s, mappedEnd ≤ p := by
  rcases bss_reach hd hhigh hlt h hf 8193 (by decide) with hfound | ⟨s',_,_,hcount⟩
  · exact hfound
  · have hmax := freeCount_le s.pmm
    unfold totalFrames at hmax
    omega

end Reach

end VesperOS.LoadPointers
