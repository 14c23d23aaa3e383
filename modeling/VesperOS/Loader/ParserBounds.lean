import VesperOS.Loader.KernelIsolation
import VesperOS.Loader.KernelSegments

/-! # Do the loaders stay inside their input?

Both loaders log the ranges of the image they read. The header table is checked
with 32 bytes an entry but walked with `e_phentsize`, and the sums are taken
modulo 2^32, so the reads stay inside the buffer only under a condition on the
headers that are visited and the segments that are copied. For `elf_load` these
are the headers as the copies before them left them.
-/
namespace VesperOS.ParserBounds
open ByteMemory FrameAllocator Paging AddressSpaces AllocationBudget ElfImage PageFill LoadPlan KernelSegments
open KernelIsolation SpaceLifecycle

/-- Every byte of the logged ranges has an offset below `len`. -/
def ReadsInside (len : ℕ) (reads : List Range) : Prop :=
  ∀ r ∈ reads, ∀ x, r.1 ≤ x → x < r.1+r.2 → x < len

theorem range_inside {len off n : ℕ} : (∀ x, off ≤ x → x < off+n → x < len) ↔ n = 0 ∨ off+n ≤ len := by
  constructor
  · intro h
    by_contra hn
    have := h (off+n-1) (by omega) (by omega)
    omega
  · intro h x h1 h2
    omega

theorem readsInside_cons {len off n : ℕ} {rs : List Range} :
    ReadsInside len ((off,n) :: rs) ↔ (n = 0 ∨ off+n ≤ len) ∧ ReadsInside len rs := by
  simp only [ReadsInside,List.forall_mem_cons,range_inside]

theorem readsInside_nil {len : ℕ} : ReadsInside len [] := by
  simp [ReadsInside]

/-! ## Segments of the user loader -/

/-- How many bytes of the file part of a segment the user loader reads, from
`p_offset` on. -/
def copiedLen (ph : Phdr) : ℕ :=
  if ph.nPages = 0 then 0
  else if Overlong ph then ph.filesz
  else if ph.vaddr + ph.filesz < 2^32 then
    min ph.filesz (min (ph.pageStart+4096*ph.nPages) (2^32-4096) - ph.vaddr)
  else 0

theorem mem_pages_iff {ph : Phdr} {v : ℕ} :
    v ∈ ph.pages ↔ ∃ j < ph.nPages, v = (ph.pageStart+j*4096) % 2^32 := by
  simp only [Phdr.pages,pagesFrom,List.mem_map,List.mem_range]
  constructor
  · rintro ⟨j,hj,rfl⟩
    exact ⟨j,hj,rfl⟩
  · rintro ⟨j,hj,rfl⟩
    exact ⟨j,hj,rfl⟩

/-- A page that wrapped around ends before the segment starts. -/
theorem page_not_wrapped {start vaddr j : ℕ} (hs : start ≤ vaddr) (hv : vaddr < 2^32) (hj : j < 2^20)
    (h : vaddr < (start+j*4096) % 2^32+4096) : (start+j*4096) % 2^32 = start+j*4096 := by
  omega

theorem page_end_le {start vaddr filesz n j : ℕ} (hs : start % 4096 = 0) (hj : j < n) (hv : start+j*4096+4096 < 2^32) :
    min (start+j*4096+4096) (vaddr+filesz)-vaddr ≤ min filesz (min (start+4096*n) (2^32-4096)-vaddr) := by
  omega

/-- The page of byte `k` of a segment. -/
theorem page_of_byte {vaddr k j : ℕ} (hj : j = (vaddr+k)/4096-vaddr/4096) :
    vaddr/4096*4096+j*4096 ≤ vaddr+k ∧ vaddr+k < vaddr/4096*4096+j*4096+4096 := by
  omega

theorem byte_copied {start vaddr filesz n k : ℕ} (h : k < min filesz (min (start+4096*n) (2^32-4096)-vaddr)) :
    k < filesz ∧ vaddr+k < start+4096*n ∧ vaddr+k < 2^32-4096 := by
  omega

section Segment
variable {ph : Phdr} (hb : Bounded ph) {len : ℕ} (hlen : len < 2^32)
include hb hlen

/-- The part of page `v` that is read lies inside the buffer if the whole copied
part does. -/
theorem fillReads_inside (hw : ph.vaddr + ph.filesz < 2^32) {j : ℕ} (hj : j < ph.nPages)
    (h : copiedLen ph = 0 ∨ ph.offset + copiedLen ph ≤ len) :
    ReadsInside len (fillReads ph ((ph.pageStart+j*4096) % 2^32)) := by
  have hs : ph.pageStart = ph.vaddr/4096*4096 := rfl
  have hvb := hb.vaddr
  have hn : ph.nPages < 2^20 := by
    simp only [Phdr.nPages]
    omega
  have hl : ¬ Overlong ph := by
    simp only [Overlong]
    omega
  have hc : copiedLen ph = min ph.filesz (min (ph.pageStart+4096*ph.nPages) (2^32-4096) - ph.vaddr) := by
    rw [copiedLen,if_neg (by omega),if_neg hl,if_pos hw]
  set v := (ph.pageStart+j*4096) % 2^32 with hv
  have hr := copyRange_of_lt hb (v := v) (Nat.mod_lt _ (by decide)) (by omega) hw
  rw [fillReads,hr]
  by_cases hin : v + 4096 < 2^32 ∧ v < ph.vaddr + ph.filesz ∧ ph.vaddr < v + 4096
  · rw [if_pos hin]
    have hstart : ph.pageStart ≤ ph.vaddr := by omega
    have hnowrap : v = ph.pageStart+j*4096 := page_not_wrapped hstart hvb (hj.trans hn) hin.2.2
    have hend : min (v+4096) (ph.vaddr+ph.filesz) - ph.vaddr ≤ copiedLen ph := by
      rw [hc,hnowrap]
      refine page_end_le (by omega) hj ?_
      rw [← hnowrap]
      exact hin.1
    clear hc hl hr hs hnowrap
    refine readsInside_cons.mpr ⟨?_,readsInside_nil⟩
    rcases h with h | h
    · left
      omega
    · by_cases hz : min (v+4096) (ph.vaddr+ph.filesz) - max v ph.vaddr = 0
      · exact Or.inl hz
      · right
        rw [Nat.mod_eq_of_lt (by omega)]
        omega
  · rw [if_neg hin]
    exact readsInside_nil

/-- If the copied part leaves the buffer, the page with its first outside byte
reads outside. -/
theorem copied_inside (hw : ph.vaddr + ph.filesz < 2^32)
    (h : ReadsInside len (fillsReads ph ph.pages)) : copiedLen ph = 0 ∨ ph.offset + copiedLen ph ≤ len := by
  by_contra hcon
  have hs : ph.pageStart = ph.vaddr/4096*4096 := rfl
  have hvb := hb.vaddr
  have hob := hb.offset
  have hl : ¬ Overlong ph := by
    simp only [Overlong]
    omega
  have hn0 : ph.nPages ≠ 0 := by
    intro h0
    exact hcon (Or.inl (by rw [copiedLen,if_pos h0]))
  have hc : copiedLen ph = min ph.filesz (min (ph.pageStart+4096*ph.nPages) (2^32-4096) - ph.vaddr) := by
    rw [copiedLen,if_neg hn0,if_neg hl,if_pos hw]
  -- the first byte at or after the end of the buffer, as an index into the file part
  obtain ⟨k,hk⟩ : ∃ k, k = max ph.offset len - ph.offset := ⟨_,rfl⟩
  obtain ⟨j,hj⟩ : ∃ j, j = (ph.vaddr+k)/4096 - ph.vaddr/4096 := ⟨_,rfl⟩
  have hcopied : k < copiedLen ph ∧ len ≤ ph.offset+k ∧ ph.offset+k < 2^32 := by omega
  rw [hc] at hcopied
  obtain ⟨hkf,hkn,hklt⟩ := byte_copied hcopied.1
  obtain ⟨_,hkl,hlim⟩ := hcopied
  have hpage := page_of_byte hj
  rw [← hs] at hpage
  clear hj hk hcon hc hl
  have hjn : j < ph.nPages := by omega
  have hv : (ph.pageStart+j*4096) % 2^32 = ph.pageStart+j*4096 := Nat.mod_eq_of_lt (by omega)
  have hr := copyRange_of_lt hb (v := ph.pageStart+j*4096) (by omega) (by omega) hw
  rw [if_pos (by omega)] at hr
  have hmem : ((ph.offset+(max (ph.pageStart+j*4096) ph.vaddr - ph.vaddr)) % 2^32,
      min (ph.pageStart+j*4096+4096) (ph.vaddr+ph.filesz) - max (ph.pageStart+j*4096) ph.vaddr) ∈
      fillsReads ph ph.pages := by
    refine List.mem_flatten.mpr ⟨fillReads ph (ph.pageStart+j*4096),List.mem_map.mpr ⟨_,?_,rfl⟩,?_⟩
    · exact mem_pages_iff.mpr ⟨j,hjn,hv.symm⟩
    · rw [fillReads,hr]
      exact List.mem_singleton_self _
  have hrange := range_inside.mp (h _ hmem)
  rw [Nat.mod_eq_of_lt (by omega)] at hrange
  omega

theorem segmentReads_inside : ReadsInside len (segmentReads ph) ↔
    copiedLen ph = 0 ∨ ph.offset + copiedLen ph ≤ len := by
  by_cases hl : Overlong ph ∧ ph.nPages ≠ 0
  · have hc : copiedLen ph = ph.filesz := by rw [copiedLen,if_neg hl.2,if_pos hl.1]
    rw [segmentReads,if_pos hl,readsInside_cons,hc]
    exact and_iff_left readsInside_nil
  · rw [segmentReads,if_neg hl]
    by_cases hw : ph.vaddr + ph.filesz < 2^32
    · constructor
      · exact copied_inside hb hlen hw
      · intro h r hr
        obtain ⟨rs,hrs,hr⟩ := List.mem_flatten.mp hr
        obtain ⟨v,hv,rfl⟩ := List.mem_map.mp hrs
        obtain ⟨j,hj,rfl⟩ := mem_pages_iff.mp hv
        exact fillReads_inside hb hlen hw hj h r hr
    · have hc : copiedLen ph = 0 := by
        by_cases hn : ph.nPages = 0
        · rw [copiedLen,if_pos hn]
        · rw [copiedLen,if_neg hn,if_neg fun ho => hl ⟨ho,hn⟩,if_neg hw]
      refine iff_of_true ?_ (Or.inl hc)
      intro r hr
      obtain ⟨rs,hrs,hr⟩ := List.mem_flatten.mp hr
      obtain ⟨v,hv,rfl⟩ := List.mem_map.mp hrs
      obtain ⟨hlt,hal⟩ := mem_pages hv
      have hn : ph.nPages ≠ 0 := by
        rintro h0
        rw [Phdr.pages,h0] at hv
        cases hv
      rw [fillReads,copyRange_of_wrap hb hlt hal (by omega) fun ho => hl ⟨ho,hn⟩] at hr
      cases hr

end Segment

/-! ## Headers -/

/-- The fields that the user loader reads of header `i` lie inside the buffer. -/
def HeaderInside (img : Image) (i : ℕ) : Prop :=
  img.phdrOff i + 4 ≤ img.len ∧ ((img.phdr i).type = 1 → img.phdrOff i + 24 ≤ img.len)

theorem headerReads_inside (img : Image) (i : ℕ) :
    ReadsInside img.len (headerReads img i) ↔ HeaderInside img i := by
  simp only [headerReads,HeaderInside]
  by_cases h1 : (img.phdr i).type = 1
  · have hkey : (img.phdrOff i + 4 ≤ img.len ∧ ((img.phdr i).type = 1 → img.phdrOff i + 24 ≤ img.len)) ↔
        img.phdrOff i + 24 ≤ img.len := ⟨fun h => h.2 h1,fun h => ⟨by omega,fun _ => h⟩⟩
    rw [if_neg (fun h => h h1),hkey]
    split
    · simp only [readsInside_cons,readsInside_nil,and_true]
      omega
    · split
      · simp only [readsInside_cons,readsInside_nil,and_true]
        omega
      · simp only [readsInside_cons,readsInside_nil,and_true]
        omega
  · rw [if_pos h1,readsInside_cons]
    constructor
    · rintro ⟨h,_⟩
      exact ⟨by omega,fun h' => absurd h' h1⟩
    · rintro ⟨h,_⟩
      exact ⟨Or.inr h,readsInside_nil⟩

def CopyInside (img : Image) (i : ℕ) : Prop :=
  copiedLen (img.phdr i) = 0 ∨ (img.phdr i).offset + copiedLen (img.phdr i) ≤ img.len

theorem readsInside_ehdr {len : ℕ} (h : ¬ len < ehdrSize) : ReadsInside len [(0,ehdrSize)] :=
  readsInside_cons.mpr ⟨Or.inr (by omega),readsInside_nil⟩

/-! ## `elf_load` -/

/-- What `elf_load` reads of header `i` and of its segment. -/
def KernelInside (img : Image) (i : ℕ) : Prop :=
  img.phdrOff i + 4 ≤ img.len ∧ ((img.phdr i).type = 1 → img.phdrOff i + 20 ≤ img.len ∧
    ((img.phdr i).filesz ≠ 0 → (img.phdr i).outside img.len = false →
      img.phdrOff i + 24 ≤ img.len ∧ (img.phdr i).offset + (img.phdr i).filesz ≤ img.len))

/-- The segment has bytes in the file. -/
def Filled (img : Image) (i : ℕ) : Prop := (img.phdr i).type = 1 ∧ (img.phdr i).filesz ≠ 0

instance (img : Image) (i : ℕ) : Decidable (Filled img i) :=
  inferInstanceAs (Decidable ((img.phdr i).type = 1 ∧ (img.phdr i).filesz ≠ 0))

/-- Its part of the file is refused. -/
def Refused (img : Image) (i : ℕ) : Prop := Filled img i ∧ (img.phdr i).outside img.len = true

instance (img : Image) (i : ℕ) : Decidable (Refused img i) :=
  inferInstanceAs (Decidable (Filled img i ∧ (img.phdr i).outside img.len = true))

/-- Memory behind header `i`: its segment has been copied if there is anything to copy. -/
def afterHeader (b : Buffer) (i : ℕ) (m : Mem) : Mem :=
  if Filled (b.image m) i then copySegment b ((b.image m).phdrOff i) m else m

/-- The headers from `i` on up to the first segment that is refused, each with the memory it is read from. -/
def visitedFrom (b : Buffer) : ℕ → ℕ → Mem → List (ℕ × Mem)
  | 0, _, _ => []
  | fuel+1, i, m =>
    if i < (b.image m).ePhnum then
      (i,m) :: if Refused (b.image m) i then [] else visitedFrom b fuel (i+1) (afterHeader b i m)
    else []

/-- The headers `elf_load` visits; none if it refuses the file. -/
def kernelHeaders (b : Buffer) (m : Mem) : List (ℕ × Mem) :=
  if b.data = 0 ∨ b.len < ehdrSize ∨ (b.image m).headerOk = false then [] else visitedFrom b 65536 0 m

section Loop
variable {b : Buffer} (hlen : ehdrSize ≤ b.len)

include hlen in
theorem loadSegment_inside (i : ℕ) (s : KernelLoad) : ReadsInside b.len (loadSegment b i s).2.reads ↔
    ReadsInside b.len s.reads ∧ KernelInside (b.image s.mem) i := by
  simp only [ehdrSize] at hlen
  unfold loadSegment KernelInside
  rw [image_len]
  generalize (b.image s.mem).phdr i = ph
  generalize (b.image s.mem).phdrOff i = off
  have hfields : ReadsInside b.len ((42,2) :: (28,4) :: s.reads) ↔ ReadsInside b.len s.reads := by
    rw [readsInside_cons,readsInside_cons]
    exact ⟨fun h => h.2.2,fun h => ⟨by omega,by omega,h⟩⟩
  dsimp only
  split
  · rename_i h1
    rw [readsInside_cons,hfields]
    constructor
    · rintro ⟨h2,h3⟩
      exact ⟨h3,by omega,fun h => absurd h h1⟩
    · rintro ⟨h2,h3,_⟩
      exact ⟨Or.inr h3,h2⟩
  · rename_i h1
    rw [ne_eq,not_not] at h1
    split
    · rename_i h2
      rw [readsInside_cons,readsInside_cons,hfields]
      constructor
      · rintro ⟨h3,h4,h5⟩
        exact ⟨h5,by omega,fun _ => ⟨by omega,fun h => absurd h2 h⟩⟩
      · rintro ⟨h3,h4,h5⟩
        have := h5 h1
        exact ⟨by omega,by omega,h3⟩
    · rename_i h2
      split
      · rename_i h3
        rw [readsInside_cons,readsInside_cons,readsInside_cons,hfields]
        constructor
        · rintro ⟨h4,h5,h6,h7⟩
          exact ⟨h7,by omega,fun _ => ⟨by omega,fun _ h => absurd (h3.symm.trans h) (by decide)⟩⟩
        · rintro ⟨h4,h5,h6⟩
          have := h6 h1
          exact ⟨by omega,by omega,by omega,h4⟩
      · rename_i h3
        rw [readsInside_cons,readsInside_cons,readsInside_cons,readsInside_cons,readsInside_cons,readsInside_cons,hfields]
        constructor
        · rintro ⟨h4,h5,h6,h7,h8,h9,h10⟩
          exact ⟨h10,by omega,fun _ => ⟨by omega,fun _ _ => ⟨by omega,by omega⟩⟩⟩
        · rintro ⟨h4,h5,h6⟩
          obtain ⟨h7,h8⟩ := h6 h1
          have := h8 h2 (by simpa using h3)
          exact ⟨by omega,by omega,by omega,by omega,by omega,by omega,h4⟩

theorem loadSegment_next (i : ℕ) (s : KernelLoad) :
    ((loadSegment b i s).1 = false ↔ Refused (b.image s.mem) i) ∧
      ((loadSegment b i s).1 = true → (loadSegment b i s).2.mem = afterHeader b i s.mem) := by
  unfold loadSegment Refused afterHeader Filled
  rw [image_len]
  dsimp only
  split
  · rename_i h1
    simp [h1]
  · rename_i h1
    rw [ne_eq,not_not] at h1
    split
    · rename_i h2
      simp [h2]
    · rename_i h2
      split
      · rename_i h3
        simp [h1,h2,h3]
      · rename_i h3
        simp [h1,h2,h3]

include hlen in
/-- The segment loop reads inside the buffer exactly when every header it visits is good. -/
theorem loadSegments_inside (fuel i : ℕ) (s : KernelLoad) : ReadsInside b.len (loadSegments b fuel i s).2.reads ↔
    ReadsInside b.len s.reads ∧ ∀ v ∈ visitedFrom b fuel i s.mem, KernelInside (b.image v.2) v.1 := by
  have hnum : ∀ rs, ReadsInside b.len ((44,2) :: rs) ↔ ReadsInside b.len rs := by
    intro rs
    rw [readsInside_cons]
    simp only [ehdrSize] at hlen
    exact and_iff_right (Or.inr (by omega))
  induction fuel generalizing i s with
  | zero => simp [loadSegments,visitedFrom]
  | succ fuel ih =>
    rw [loadSegments,visitedFrom]
    by_cases hlt : i < (b.image s.mem).ePhnum
    · rw [if_pos hlt,if_pos hlt,List.forall_mem_cons]
      have hin := loadSegment_inside hlen i ⟨s.mem,(44,2) :: s.reads⟩
      obtain ⟨hstop,hmem⟩ := @loadSegment_next b i ⟨s.mem,(44,2) :: s.reads⟩
      rw [hnum] at hin
      dsimp only at hin hstop hmem ⊢
      rcases hres : loadSegment b i ⟨s.mem,(44,2) :: s.reads⟩ with ⟨ok,s'⟩
      rw [hres] at hin hstop hmem
      cases ok with
      | false =>
        rw [if_pos (hstop.mp rfl)]
        simpa using hin
      | true =>
        have hgo : ¬ Refused (b.image s.mem) i := fun h => absurd (show true = false from hstop.mpr h) (by decide)
        have hstep := ih (i+1) s'
        rw [hin,hmem rfl,and_assoc] at hstep
        rw [if_neg hgo]
        exact hstep
    · rw [if_neg hlt,if_neg hlt,hnum]
      simp

end Loop

theorem elfLoad_inside (b : Buffer) (m : Mem) :
    ReadsInside b.len (elfLoadIn b m).2.reads ↔ ∀ v ∈ kernelHeaders b m, KernelInside (b.image v.2) v.1 := by
  unfold elfLoadIn kernelHeaders
  by_cases harg : b.data = 0 ∨ b.len < ehdrSize
  · have harg' : b.data = 0 ∨ b.len < ehdrSize ∨ (b.image m).headerOk = false := by tauto
    rw [if_pos harg,if_pos harg']
    simp [readsInside_nil]
  · have hlen : ¬ b.len < ehdrSize := fun h => harg (Or.inr h)
    have hentry : ∀ rs, ReadsInside b.len ((24,4) :: rs) ↔ ReadsInside b.len rs := by
      intro rs
      rw [readsInside_cons]
      simp only [ehdrSize] at hlen
      exact and_iff_right (Or.inr (by omega))
    rw [if_neg harg]
    cases hok : (b.image m).headerOk with
    | false => simp [readsInside_ehdr hlen]
    | true =>
      have harg' : ¬ (b.data = 0 ∨ b.len < ehdrSize ∨ true = false) := by simpa using harg
      have h := loadSegments_inside (Nat.le_of_not_lt hlen) 65536 0 ⟨m,[(0,ehdrSize)]⟩
      rw [and_iff_right (readsInside_ehdr hlen)] at h
      rw [if_neg harg',← h,if_pos rfl]
      rcases loadSegments b 65536 0 ⟨m,[(0,ehdrSize)]⟩ with ⟨ok,s⟩
      cases ok with
      | false => rfl
      | true => exact hentry s.reads

/-! ## Segments apart from the buffer -/

/-- The same headers, all read from the image as it was given. -/
def firstVisited (img : Image) : List ℕ → List ℕ
  | [] => []
  | i :: rest => i :: if Refused img i then [] else firstVisited img rest

def firstHeaders (b : Buffer) (m : Mem) : List ℕ :=
  if b.data = 0 ∨ b.len < ehdrSize ∨ (b.image m).headerOk = false then []
  else firstVisited (b.image m) (List.range (b.image m).ePhnum)

/-- No byte of the segment goes into the buffer. -/
def Misses (b : Buffer) (ph : Phdr) : Prop :=
  ∀ k < max ph.filesz ph.memsz, (ph.vaddr+k) % 2^32 < b.data ∨ b.data + b.len ≤ (ph.vaddr+k) % 2^32

/-- The segments that are copied miss the buffer. -/
def Apart (b : Buffer) (m : Mem) : Prop :=
  ∀ i ∈ firstHeaders b m, Filled (b.image m) i → Misses b ((b.image m).phdr i)

section Apart
variable {b : Buffer} {m m' : Mem} (h : SameBuffer b m m') (hlen : ehdrSize ≤ b.len)
include h hlen

/-- What decides about header `i` lies in the buffer, or the header is not good. -/
theorem kernelInside_same (i : ℕ) :
    (KernelInside (b.image m') i ↔ KernelInside (b.image m) i) ∧
      (KernelInside (b.image m) i → (Filled (b.image m') i ↔ Filled (b.image m) i) ∧
        (Refused (b.image m') i ↔ Refused (b.image m) i)) := by
  unfold KernelInside Refused Filled
  rw [image_len,image_len,h.phdrOff hlen i]
  by_cases h4 : (b.image m).phdrOff i + 4 ≤ b.len
  · have htype : ((b.image m').phdr i).type = ((b.image m).phdr i).type := by
      rw [phdr_eq,phdr_eq,h.phdrOff hlen i]
      exact h.read32 h4
    by_cases h20 : (b.image m).phdrOff i + 20 ≤ b.len
    · have hoff : ((b.image m').phdr i).offset = ((b.image m).phdr i).offset := by
        rw [phdr_eq,phdr_eq,h.phdrOff hlen i]
        exact h.read32 (by omega)
      have hsize : ((b.image m').phdr i).filesz = ((b.image m).phdr i).filesz := by
        rw [phdr_eq,phdr_eq,h.phdrOff hlen i]
        exact h.read32 (by omega)
      unfold Phdr.outside
      rw [htype,hoff,hsize]
      exact ⟨Iff.rfl,fun _ => ⟨Iff.rfl,Iff.rfl⟩⟩
    · rw [htype]
      refine ⟨?_,fun hgood => ?_⟩
      · simp [h20]
      · have hne : ((b.image m).phdr i).type ≠ 1 := fun ht => h20 (hgood.2 ht).1
        simp [hne]
  · exact ⟨by simp [h4],fun hgood => absurd hgood.1 h4⟩

theorem afterHeader_same {i : ℕ} (hgood : KernelInside (b.image m) i) (hgo : ¬ Refused (b.image m) i)
    (hmiss : Filled (b.image m) i → Misses b ((b.image m).phdr i)) : SameBuffer b m (afterHeader b i m') := by
  obtain ⟨-,hsame⟩ := kernelInside_same h hlen i
  obtain ⟨hfill,-⟩ := hsame hgood
  unfold afterHeader
  by_cases hf : Filled (b.image m) i
  · have hin : ((b.image m).phdr i).outside b.len = false := by
      rw [← image_len b m]
      exact Bool.eq_false_iff.mpr fun ht => hgo ⟨hf,ht⟩
    have h24 := ((hgood.2 hf.1).2 hf.2 (by rw [image_len]; exact hin)).1
    rw [image_len] at h24
    have hphdr : ∀ {m'}, SameBuffer b m m' → phdrAt (b.image m') ((b.image m).phdrOff i) = (b.image m).phdr i :=
      fun h' => h'.phdrAt h24
    have hmiss := hmiss hf
    rw [if_pos (hfill.mpr hf),h.phdrOff hlen i]
    unfold copySegment
    dsimp only
    rw [hphdr h]
    generalize (b.image m).phdr i = ph at hphdr hmiss
    have hcopy : SameBuffer b m (copyBytes m' ph.vaddr (b.data+ph.offset) ph.filesz) := by
      intro k hk
      rw [copyBytes_of_outside m' fun j hj => ?_]
      · exact h k hk
      · have hj' := hmiss j (by omega)
        omega
    rw [hphdr hcopy]
    split
    · intro k hk
      rw [setBytes_of_outside _ 0 fun j hj => ?_]
      · exact hcopy k hk
      · have hj' := hmiss (ph.filesz+j) (by omega)
        rw [← Nat.add_assoc] at hj'
        omega
    · exact hcopy
  · rw [if_neg (fun hf' => hf (hfill.mp hf'))]
    exact h

/-- From header `n` on. -/
theorem visited_same {fuel n : ℕ} (hfuel : (b.image m).ePhnum < n + fuel)
    (hmiss : ∀ i ∈ firstVisited (b.image m) (List.range' n ((b.image m).ePhnum-n)), Filled (b.image m) i →
      Misses b ((b.image m).phdr i)) :
    (∀ v ∈ visitedFrom b fuel n m', KernelInside (b.image v.2) v.1) ↔
      ∀ i ∈ firstVisited (b.image m) (List.range' n ((b.image m).ePhnum-n)), KernelInside (b.image m) i := by
  induction fuel generalizing n m' with
  | zero =>
    rw [Nat.sub_eq_zero_of_le (by omega)]
    simp [visitedFrom,firstVisited]
  | succ fuel ih =>
    rw [visitedFrom,h.ePhnum hlen]
    by_cases hlt : n < (b.image m).ePhnum
    · obtain ⟨c,hc⟩ : ∃ c, (b.image m).ePhnum-n = c+1 := ⟨(b.image m).ePhnum-n-1,by omega⟩
      rw [hc,List.range'_succ,firstVisited] at hmiss ⊢
      obtain ⟨hgood,hsame⟩ := kernelInside_same h hlen n
      rw [if_pos hlt,List.forall_mem_cons,List.forall_mem_cons,hgood]
      refine and_congr_right fun hin => ?_
      obtain ⟨-,hstop⟩ := hsame hin
      by_cases hr : Refused (b.image m) n
      · rw [if_pos (hstop.mpr hr),if_pos hr]
        simp
      · rw [if_neg (fun hr' => hr (hstop.mp hr')),if_neg hr]
        have hnext := afterHeader_same h hlen hin hr (hmiss n List.mem_cons_self)
        rw [if_neg hr] at hmiss
        have hrest := ih hnext (n := n+1) (by omega)
        rw [show (b.image m).ePhnum-(n+1) = c by omega] at hrest
        exact hrest fun i hi => hmiss i (List.mem_cons_of_mem n hi)
    · rw [if_neg hlt,Nat.sub_eq_zero_of_le (by omega)]
      simp [firstVisited]

end Apart

/-- When the copies miss the buffer, the headers it was given decide. -/
theorem elfLoad_inside_apart {b : Buffer} {m : Mem} (h : Apart b m) :
    ReadsInside b.len (elfLoadIn b m).2.reads ↔ ∀ i ∈ firstHeaders b m, KernelInside (b.image m) i := by
  rw [elfLoad_inside]
  unfold Apart at h
  unfold kernelHeaders
  unfold firstHeaders at h ⊢
  by_cases harg : b.data = 0 ∨ b.len < ehdrSize ∨ (b.image m).headerOk = false
  · rw [if_pos harg,if_pos harg]
    simp
  · rw [if_neg harg] at h ⊢
    rw [if_neg harg]
    have hlt := ePhnum_lt (b.image m)
    rw [List.range_eq_range',← Nat.sub_zero (b.image m).ePhnum] at h ⊢
    exact visited_same (fun _ _ => rfl) (by omega) (by omega) h

/-! ## Both loaders -/

theorem elfLoadUser_inside {K : KernelLayout} {live : List ℕ} {d : ℕ} {s : Machine}
    (h : Separated K s live) (hd : d ∈ live) (img : Image) :
    ReadsInside img.len (elfLoadUser img (4096*d) s).2.reads ↔
      (∀ i ∈ (plan img (budgetOf s d)).visited, HeaderInside img i) ∧
      ∀ i ∈ (plan img (budgetOf s d)).copied, CopyInside img i := by
  obtain ⟨-,-,-,hreads⟩ := elfLoadUser_plan h hd img
  constructor
  · intro hin
    constructor
    · intro i hi
      rw [← headerReads_inside]
      exact fun r hr => hin r ((hreads r).mpr (Or.inr (Or.inl ⟨i,hi,hr⟩)))
    · intro i hi
      refine (segmentReads_inside (bounded_phdr img i) img.len_lt).mp ?_
      exact fun r hr => hin r ((hreads r).mpr (Or.inr (Or.inr ⟨i,hi,hr⟩)))
  · rintro ⟨hv,hc⟩ r hr
    rcases (hreads r).mp hr with ⟨hle,rfl⟩ | ⟨i,hi,hr⟩ | ⟨i,hi,hr⟩
    · exact readsInside_ehdr (Nat.not_lt.mpr hle) _ List.mem_cons_self
    · exact (headerReads_inside img i).mpr (hv i hi) r hr
    · exact (segmentReads_inside (bounded_phdr img i) img.len_lt).mpr (hc i hi) r hr

/-- The buffer lies in frames in use that hold neither the directory `d` nor its tables. -/
def InUse (b : Buffer) (d : ℕ) (s : Machine) : Prop :=
  ∀ x, b.data ≤ x → x < b.data+b.len → pmmIsUsed s.pmm (x/4096) = true ∧ ¬ OwnFrame s.mem d (x/4096)

/-- When the reads of the two loaders stay inside the buffer. What `elf_load_user` reads does not change under it, as
long as it maps no page below 8 MB. -/
theorem loaders_inside_iff {K : KernelLayout} {live : List ℕ} {d : ℕ} {s : Machine}
    (h : Separated K s live) (hd : d ∈ live) (img : Image) (b : Buffer) (m : Mem) :
    (ReadsInside b.len (elfLoadIn b m).2.reads ↔ ∀ v ∈ kernelHeaders b m, KernelInside (b.image v.2) v.1) ∧
    (Apart b m →
      (ReadsInside b.len (elfLoadIn b m).2.reads ↔ ∀ i ∈ firstHeaders b m, KernelInside (b.image m) i)) ∧
    (ReadsInside img.len (elfLoadUser img (4096*d) s).2.reads ↔
      (∀ i ∈ (plan img (budgetOf s d)).visited, HeaderInside img i) ∧
      ∀ i ∈ (plan img (budgetOf s d)).copied, CopyInside img i) ∧
    (InUse b d s → ∀ vs s', LoadRun live d s vs s' → (∀ v ∈ vs, 0x800000 ≤ v) → SameBuffer b s.mem s'.mem) := by
  refine ⟨elfLoad_inside b m,elfLoad_inside_apart,elfLoadUser_inside h hd img,?_⟩
  intro hb vs s' hr hhigh k hk
  obtain ⟨hused,hown⟩ := hb (b.data+k) (by omega) (by omega)
  exact (LoadRun.kept h hd hr hhigh hused hown).1 (b.data+k) rfl

/-- One segment that is the whole image. -/
def plainImage : Image := ⟨imageBytes 0x800000 [⟨1,0,0x800000,84,84⟩],fun _ => 0,by decide⟩

theorem loaders_inside_plainImage :
    ReadsInside sampleBuffer.len (elfLoadIn sampleBuffer (oneSegment ⟨1,0,0x300000,84,84⟩)).2.reads ∧
    ReadsInside plainImage.len (elfLoadUser plainImage (4096*firstDirectory) oneDirectory.mach).2.reads := by
  have hk : firstHeaders sampleBuffer (oneSegment ⟨1,0,0x300000,84,84⟩) = [0] := by decide +kernel
  have hph : (sampleBuffer.image (oneSegment ⟨1,0,0x300000,84,84⟩)).phdr 0 = ⟨1,0,0x300000,84,84⟩ := by
    decide +kernel
  have hapart : Apart sampleBuffer (oneSegment ⟨1,0,0x300000,84,84⟩) := by
    unfold Apart
    rw [hk,List.forall_mem_singleton,hph]
    intro _
    unfold Misses
    decide +kernel
  have hv : (plan plainImage ⟨7935,{0,1}⟩).visited = [0] := by decide +kernel
  have hc : (plan plainImage ⟨7935,{0,1}⟩).copied = [0] := by decide +kernel
  have hki : KernelInside (sampleBuffer.image (oneSegment ⟨1,0,0x300000,84,84⟩)) 0 := by
    unfold KernelInside
    decide +kernel
  have hhi : HeaderInside plainImage 0 := by
    unfold HeaderInside
    decide +kernel
  have hci : CopyInside plainImage 0 := by
    unfold CopyInside
    decide +kernel
  obtain ⟨-,h1,h2,-⟩ := loaders_inside_iff oneDirectory_separated (List.mem_singleton_self _) plainImage sampleBuffer
    (oneSegment ⟨1,0,0x300000,84,84⟩)
  rw [oneDirectory_budget,hv,hc] at h2
  rw [hk] at h1
  exact ⟨(h1 hapart).mpr (by simpa using hki),h2.mpr ⟨by simpa using hhi,by simpa using hci⟩⟩

/-- Memory with the bytes of a file from 2 MiB on. -/
def placed (bytes : List UInt8) : Mem := fun x => if 0x200000 ≤ x then bytes.getD (x-0x200000) 0 else 0

/-- Two null headers, walked with a stride of 65535. -/
def strideImage : Image :=
  ⟨ehdrBytes 0x800000 0xFFFF 2 ++ (List.replicate 2 (phdrBytes ⟨0,0,0,0,0⟩)).flatten,fun _ => 0,by decide⟩

def strideBuffer : Buffer := ⟨0x200000,116,by decide,by decide⟩

/-- Headers of 32 bytes; the first segment is two bytes for `e_phentsize`. -/
def overwriting : List UInt8 :=
  ehdrBytes 0x300000 phdrSize 2 ++ phdrBytes ⟨1,116,0x20002A,2,2⟩ ++ phdrBytes ⟨0,0,0,0,0⟩ ++ [0xFF,0xFF]

def overwritingBuffer : Buffer := ⟨0x200000,118,by decide,by decide⟩

theorem readsOutside_of_mem {len : ℕ} {reads : List Range} {r : Range} (hr : r ∈ reads) (hpos : 0 < r.2)
    (hlen : len < r.1+r.2) : ¬ ReadsInside len reads := by
  intro h
  have hlast := h r hr (r.1+r.2-1) (by omega) (by omega)
  omega

/-- Both loaders read the second header 65471 bytes past the end, `elf_load` also where its first copy made the
stride so long. -/
theorem strideImage_readsOutside :
    ¬ ReadsInside strideBuffer.len (elfLoadIn strideBuffer (placed strideImage.bytes)).2.reads ∧
    ¬ ReadsInside strideImage.len
      (elfLoadUser strideImage (4096*firstDirectory) oneDirectory.mach).2.reads ∧
    (∀ i ∈ firstHeaders overwritingBuffer (placed overwriting),
      KernelInside (overwritingBuffer.image (placed overwriting)) i) ∧
    ¬ ReadsInside overwritingBuffer.len (elfLoadIn overwritingBuffer (placed overwriting)).2.reads := by
  have hoff : ¬ strideImage.phdrOff 1 + 4 ≤ strideImage.len := by decide +kernel
  have hu : (plan strideImage ⟨7935,{0,1}⟩).visited = [0,1] := by decide +kernel
  have hfirst : firstHeaders overwritingBuffer (placed overwriting) = [0,1] := by decide +kernel
  refine ⟨?_,?_,?_,?_⟩
  · exact readsOutside_of_mem (r := (65587,4)) (by decide +kernel) (by decide) (by decide)
  · rw [elfLoadUser_inside oneDirectory_separated (List.mem_singleton_self _),oneDirectory_budget,hu]
    intro h
    exact hoff (h.1 1 (by simp)).1
  · rw [hfirst]
    unfold KernelInside
    decide +kernel
  · exact readsOutside_of_mem (r := (65587,4)) (by decide +kernel) (by decide) (by decide)

end VesperOS.ParserBounds
