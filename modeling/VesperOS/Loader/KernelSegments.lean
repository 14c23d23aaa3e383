import VesperOS.Loader.ElfImage

/-! # `elf_load` and what it leaves in memory

A segment of a kernel thread goes where its header says, which may be anywhere, the image
included. The loader is stated here over one memory: the loop reads `e_phnum` and the header
again for each segment from where `data` points, the copy goes byte by byte, and the size of
the zeroed rest is read behind it. Every range of the image that is read is logged.
-/
namespace VesperOS.KernelSegments
open ByteMemory ElfImage

/-- The arguments `data` and `len`. -/
structure Buffer where
  data : ℕ
  len : ℕ
  len_lt : len < 2^32
  fits : data + len ≤ 2^32

/-- What the buffer holds in the memory `m`. -/
def Buffer.image (b : Buffer) (m : Mem) : Image where
  bytes := (List.range b.len).map (fun k => m (b.data+k))
  beyond := fun off => m ((b.data+off) % 2^32)
  len_lt := by
    rw [List.length_map,List.length_range]
    exact b.len_lt

/-- The program header at an offset of the image. -/
def phdrAt (img : Image) (off : ℕ) : Phdr where
  type := read32 img.view off
  offset := read32 img.view (off+4)
  vaddr := read32 img.view (off+8)
  filesz := read32 img.view (off+16)
  memsz := read32 img.view (off+20)

theorem phdr_eq (img : Image) (i : ℕ) : img.phdr i = phdrAt img (img.phdrOff i) := rfl

/-- `memcpy` and `memset` for the header at `off`; the fields behind the copy are those it left. -/
def copySegment (b : Buffer) (off : ℕ) (m : Mem) : Mem :=
  let ph := phdrAt (b.image m) off
  let m := copyBytes m ph.vaddr (b.data+ph.offset) ph.filesz
  let ph := phdrAt (b.image m) off
  if ph.filesz < ph.memsz then setBytes m (ph.vaddr+ph.filesz) 0 (ph.memsz-ph.filesz) else m

/-- Memory and the reads so far, latest first; a field of the same header is logged once. -/
structure KernelLoad where
  mem : Mem
  reads : List Range

/-- One iteration of the segment loop; `false` is its `return 0`. -/
def loadSegment (b : Buffer) (i : ℕ) (s : KernelLoad) : Bool × KernelLoad :=
  let off := (b.image s.mem).phdrOff i
  let ph := (b.image s.mem).phdr i
  let reads := (42,2) :: (28,4) :: s.reads
  if ph.type ≠ 1 then (true,⟨s.mem,(off,4) :: reads⟩)
  else if ph.filesz = 0 then (true,⟨s.mem,(off+16,4) :: (off,4) :: reads⟩)
  else if ph.outside b.len then (false,⟨s.mem,(off+4,4) :: (off+16,4) :: (off,4) :: reads⟩)
  else (true,⟨copySegment b off s.mem,
    (off+20,4) :: (ph.offset,ph.filesz) :: (off+8,4) :: (off+4,4) :: (off+16,4) :: (off,4) :: reads⟩)

/-- The segment loop from header `i` on. The counter has 16 bits, as `e_phnum` has, so the fuel is never used up. -/
def loadSegments (b : Buffer) : ℕ → ℕ → KernelLoad → Bool × KernelLoad
  | 0, _, s => (true,s)
  | fuel+1, i, s =>
    if i < (b.image s.mem).ePhnum then
      match loadSegment b i ⟨s.mem,(44,2) :: s.reads⟩ with
      | (false,s) => (false,s)
      | (true,s) => loadSegments b fuel (i+1) s
    else (true,⟨s.mem,(44,2) :: s.reads⟩)

/-- `elf_load`: the entry point or 0, memory and the reads. -/
def elfLoadIn (b : Buffer) (m : Mem) : ℕ × KernelLoad :=
  if b.data = 0 ∨ b.len < ehdrSize then (0,⟨m,[]⟩)
  else if (b.image m).headerOk then
    match loadSegments b 65536 0 ⟨m,[(0,ehdrSize)]⟩ with
    | (true,s) => ((b.image s.mem).eEntry,⟨s.mem,(24,4) :: s.reads⟩)
    | (false,s) => (0,s)
  else (0,⟨m,[(0,ehdrSize)]⟩)

/-! ## Segments -/

def Segment (img : Image) (i : ℕ) : Prop := i < img.ePhnum ∧ (img.phdr i).type = 1

/-- `x` is one of the `p_memsz` bytes of the segment. -/
def InSegment (ph : Phdr) (x : ℕ) : Prop := ph.vaddr ≤ x ∧ x < ph.vaddr + ph.memsz

/-- The images that a kernel thread is loaded from: 32-byte headers, no sum that wraps, and segments apart from each
other and from the buffer. -/
structure Separate (b : Buffer) (m : Mem) : Prop where
  entries : (b.image m).ePhentsize = phdrSize
  table : (b.image m).ePhoff + (b.image m).ePhnum * phdrSize < 2^32
  sizes : ∀ i, Segment (b.image m) i → ((b.image m).phdr i).filesz ≤ ((b.image m).phdr i).memsz
  file : ∀ i, Segment (b.image m) i → ((b.image m).phdr i).offset + ((b.image m).phdr i).filesz < 2^32
  memory : ∀ i, Segment (b.image m) i → ((b.image m).phdr i).vaddr + ((b.image m).phdr i).memsz ≤ 2^32
  disjoint : ∀ i j, Segment (b.image m) i → Segment (b.image m) j → i ≠ j →
    ∀ x, InSegment ((b.image m).phdr i) x → ¬ InSegment ((b.image m).phdr j) x
  buffer : ∀ i, Segment (b.image m) i → ∀ x, InSegment ((b.image m).phdr i) x → x < b.data ∨ b.data + b.len ≤ x

/-- Every segment holds its part of the file followed by zeros, and nothing else has changed. -/
structure Initialised (b : Buffer) (m m' : Mem) : Prop where
  segment : ∀ i, Segment (b.image m) i → ∀ k < ((b.image m).phdr i).memsz,
    m' (((b.image m).phdr i).vaddr+k) =
      if k < ((b.image m).phdr i).filesz then m (b.data+((b.image m).phdr i).offset+k) else 0
  outside : ∀ x, (∀ i, Segment (b.image m) i → ¬ InSegment ((b.image m).phdr i) x) → m' x = m x

/-! ## Reading the buffer -/

section Read
variable {b : Buffer} {m m' : Mem}

theorem image_len (b : Buffer) (m : Mem) : (b.image m).len = b.len := by
  rw [Image.len,Buffer.image,List.length_map,List.length_range]

theorem image_view {off : ℕ} (h : off < b.len) : (b.image m).view off = m (b.data+off) := by
  have hlt := b.len_lt
  have hmod : off % 2^32 = off := Nat.mod_eq_of_lt (by omega)
  rw [Image.view,image_len,hmod,if_pos h,Buffer.image]
  simp [List.getD_eq_getElem?_getD,h]

/-- Memory with the same bytes in the buffer gives the same header fields. -/
def SameBuffer (b : Buffer) (m m' : Mem) : Prop := ∀ k < b.len, m' (b.data+k) = m (b.data+k)

theorem SameBuffer.view (h : SameBuffer b m m') {off : ℕ} (hoff : off < b.len) :
    (b.image m').view off = (b.image m).view off := by
  rw [image_view hoff,image_view hoff,h off hoff]

theorem SameBuffer.read32 (h : SameBuffer b m m') {off : ℕ} (hoff : off + 4 ≤ b.len) :
    ByteMemory.read32 (b.image m').view off = ByteMemory.read32 (b.image m).view off :=
  read32_congr fun x h1 h2 => h.view (by omega)

theorem SameBuffer.read16 (h : SameBuffer b m m') {off : ℕ} (hoff : off + 2 ≤ b.len) :
    ByteMemory.read16 (b.image m').view off = ByteMemory.read16 (b.image m).view off := by
  rw [ByteMemory.read16,ByteMemory.read16,h.view (by omega),h.view (by omega)]

theorem SameBuffer.phdrAt (h : SameBuffer b m m') {off : ℕ} (hin : off + 24 ≤ b.len) :
    phdrAt (b.image m') off = phdrAt (b.image m) off := by
  unfold KernelSegments.phdrAt
  rw [h.read32 (by omega),h.read32 (by omega),h.read32 (by omega),h.read32 (by omega),h.read32 (by omega)]

section Fields
variable (h : SameBuffer b m m') (hlen : ehdrSize ≤ b.len)
include h hlen

theorem SameBuffer.ePhnum : (b.image m').ePhnum = (b.image m).ePhnum :=
  h.read16 (by simp only [ehdrSize] at hlen; omega)

theorem SameBuffer.phdrOff (i : ℕ) : (b.image m').phdrOff i = (b.image m).phdrOff i := by
  have hoff : (b.image m').ePhoff = (b.image m).ePhoff := h.read32 (by simp only [ehdrSize] at hlen; omega)
  have hent : (b.image m').ePhentsize = (b.image m).ePhentsize := h.read16 (by simp only [ehdrSize] at hlen; omega)
  rw [Image.phdrOff,Image.phdrOff,hoff,hent]

theorem SameBuffer.phdr {i : ℕ} (hin : (b.image m).phdrOff i + 24 ≤ b.len) :
    (b.image m').phdr i = (b.image m).phdr i := by
  rw [phdr_eq,h.phdrOff hlen,h.phdrAt hin,← phdr_eq]

end Fields

end Read

/-! ## One segment -/

section Step
variable {b : Buffer}

theorem loadSegment_skip {i : ℕ} {s : KernelLoad} (h : ((b.image s.mem).phdr i).type = 1 →
    ((b.image s.mem).phdr i).filesz = 0) :
    (loadSegment b i s).1 = true ∧ (loadSegment b i s).2.mem = s.mem := by
  unfold loadSegment
  by_cases ht : ((b.image s.mem).phdr i).type = 1
  · simp [ht,h ht]
  · simp [ht]

theorem loadSegment_copy {i : ℕ} {s : KernelLoad} (ht : ((b.image s.mem).phdr i).type = 1)
    (hf : ((b.image s.mem).phdr i).filesz ≠ 0) (hok : (loadSegment b i s).1 = true) :
    ((b.image s.mem).phdr i).outside b.len = false ∧
      (loadSegment b i s).2.mem = copySegment b ((b.image s.mem).phdrOff i) s.mem := by
  unfold loadSegment at hok ⊢
  simp only [ht,hf,ne_eq,not_true_eq_false,if_false] at hok ⊢
  cases hout : ((b.image s.mem).phdr i).outside b.len with
  | true => simp [hout] at hok
  | false => simp

/-- A range without a byte in the buffer lies before or behind it. -/
theorem range_apart (hlen : 0 < b.len) {start n : ℕ}
    (h : ∀ x, start ≤ x → x < start+n → x < b.data ∨ b.data + b.len ≤ x) :
    n = 0 ∨ start+n ≤ b.data ∨ b.data + b.len ≤ start := by
  by_cases hle : start ≤ b.data
  · by_cases hlt : b.data < start+n
    · have hdata := h b.data hle hlt
      omega
    · omega
  · by_cases hn : n = 0
    · exact Or.inl hn
    · have hstart := h start le_rfl (by omega)
      omega

/-- A segment apart from the buffer is written as a whole. -/
theorem copySegment_fill {off : ℕ} {m : Mem} (hin : off + 24 ≤ b.len)
    (hle : (phdrAt (b.image m) off).filesz ≤ (phdrAt (b.image m) off).memsz)
    (hfile : (phdrAt (b.image m) off).offset + (phdrAt (b.image m) off).filesz ≤ b.len)
    (hmem : (phdrAt (b.image m) off).vaddr + (phdrAt (b.image m) off).memsz ≤ 2^32)
    (hbuf : ∀ x, InSegment (phdrAt (b.image m) off) x → x < b.data ∨ b.data + b.len ≤ x) :
    (∀ k < (phdrAt (b.image m) off).memsz, copySegment b off m ((phdrAt (b.image m) off).vaddr+k) =
        if k < (phdrAt (b.image m) off).filesz then m (b.data+(phdrAt (b.image m) off).offset+k) else 0) ∧
      ∀ x, ¬ InSegment (phdrAt (b.image m) off) x → copySegment b off m x = m x := by
  have hfits := b.fits
  have happart := range_apart (by omega) fun x h1 h2 => hbuf x ⟨h1,h2⟩
  have hphdr : ∀ m', SameBuffer b m m' → phdrAt (b.image m') off = phdrAt (b.image m) off :=
    fun m' h => h.phdrAt hin
  unfold copySegment
  generalize phdrAt (b.image m) off = ph at hle hfile hmem happart hphdr ⊢
  have hcopy : copyBytes m ph.vaddr (b.data+ph.offset) ph.filesz =
      memcpy m ph.vaddr (fun k => m (b.data+ph.offset+k)) ph.filesz := by
    by_cases hz : ph.filesz = 0
    · rw [hz]
      rfl
    · exact copyBytes_eq (by omega) (by omega) (by omega) fun _ _ => rfl
  have hsame : SameBuffer b m (memcpy m ph.vaddr (fun k => m (b.data+ph.offset+k)) ph.filesz) := by
    intro k hk
    exact memcpy_of_outside _ _ (by omega)
  rw [hcopy,hphdr _ hsame,setBytes_eq _ _ (by omega)]
  constructor
  · intro k hk
    by_cases hk' : k < ph.filesz
    · rw [if_pos hk']
      split
      · rw [memset_of_outside _ _ (by omega),memcpy_apply,if_pos (by omega),Nat.add_sub_cancel_left]
      · rw [memcpy_apply,if_pos (by omega),Nat.add_sub_cancel_left]
    · rw [if_neg hk',if_pos (by omega),memset_apply,if_pos (by omega)]
  · intro x hx
    unfold InSegment at hx
    split
    · rw [memset_of_outside _ _ (by omega),memcpy_of_outside _ _ (by omega)]
    · rw [memcpy_of_outside _ _ (by omega)]

end Step

/-! ## The loop -/

/-- The loop has something to do for the segment. -/
def Copied (img : Image) (i : ℕ) : Prop := Segment img i ∧ (img.phdr i).filesz ≠ 0

/-- Memory after the first `n` headers. -/
structure Done (b : Buffer) (m : Mem) (n : ℕ) (m' : Mem) : Prop where
  filled : ∀ i < n, Copied (b.image m) i → ∀ k < ((b.image m).phdr i).memsz,
    m' (((b.image m).phdr i).vaddr+k) =
      if k < ((b.image m).phdr i).filesz then m (b.data+((b.image m).phdr i).offset+k) else 0
  kept : ∀ x, (∀ i < n, Copied (b.image m) i → ¬ InSegment ((b.image m).phdr i) x) → m' x = m x

section Loop
variable {b : Buffer} {m m' : Mem} {n : ℕ}

theorem done_zero (b : Buffer) (m : Mem) : Done b m 0 m := ⟨fun _ hi => absurd hi (Nat.not_lt_zero _),fun _ _ => rfl⟩

theorem Done.sameBuffer (h : Done b m n m') (hs : Separate b m) : SameBuffer b m m' := by
  intro k hk
  apply h.kept
  intro i _ hc hin
  have hbuf := hs.buffer i hc.1 _ hin
  omega

/-- Headers of the table lie in the buffer. -/
theorem phdrOff_inside (hs : Separate b m) (hok : (b.image m).headerOk = true) {i : ℕ} (hi : i < (b.image m).ePhnum) :
    (b.image m).phdrOff i + phdrSize ≤ b.len := by
  have htable := hs.table
  have hent := hs.entries
  simp only [Image.headerOk,Bool.and_eq_true,decide_eq_true_eq] at hok
  have hbound := hok.2
  rw [image_len,Nat.mod_eq_of_lt htable] at hbound
  rw [Image.phdrOff,hent]
  simp only [phdrSize] at *
  rw [Nat.mod_eq_of_lt (by omega)]
  omega

/-- A copied segment: the bytes of the file come from the buffer as it was at the start. -/
theorem Done.fill (h : Done b m n m') (hs : Separate b m) (hin : (b.image m).phdrOff n + 24 ≤ b.len)
    (hoff : (b.image m').phdrOff n = (b.image m).phdrOff n) (hc : Copied (b.image m) n)
    (hout : ((b.image m').phdr n).outside b.len = false) :
    Done b m (n+1) (copySegment b ((b.image m').phdrOff n) m') := by
  have hsame := h.sameBuffer hs
  have hph : phdrAt (b.image m') ((b.image m).phdrOff n) = (b.image m).phdr n := hsame.phdrAt hin
  have hfile := hs.file n hc.1
  rw [phdr_eq,hoff,hph,Phdr.outside,decide_eq_false_iff_not,Nat.mod_eq_of_lt hfile] at hout
  have hfill := @copySegment_fill b ((b.image m).phdrOff n) m' hin
  rw [hph] at hfill
  obtain ⟨hnew,hkeep⟩ := hfill (hs.sizes n hc.1) (by omega) (hs.memory n hc.1) (hs.buffer n hc.1)
  rw [hoff]
  constructor
  · intro i hi hci k hk
    by_cases hin' : i = n
    · subst hin'
      rw [hnew k hk]
      by_cases hk' : k < ((b.image m).phdr i).filesz
      · rw [if_pos hk',if_pos hk',Nat.add_assoc,hsame _ (by omega)]
      · rw [if_neg hk',if_neg hk']
    · have hold := h.filled i (by omega) hci k hk
      rw [← hold]
      apply hkeep
      exact hs.disjoint i n hci.1 hc.1 hin' _ ⟨by omega,by omega⟩
  · intro x hx
    rw [hkeep x (hx n (Nat.lt_succ_self n) hc)]
    exact h.kept x fun i hi hci => hx i (by omega) hci

theorem Done.skip (h : Done b m n m') (hc : ¬ Copied (b.image m) n) : Done b m (n+1) m' := by
  have hlt : ∀ {i}, i < n+1 → Copied (b.image m) i → i < n := by
    intro i hi hci
    have hne : i ≠ n := by
      rintro rfl
      exact hc hci
    omega
  constructor
  · intro i hi hci
    exact h.filled i (hlt hi hci) hci
  · intro x hx
    exact h.kept x fun i hi hci => hx i (by omega) hci

theorem Done.step (h : Done b m n m') (hs : Separate b m) (hlen : ehdrSize ≤ b.len)
    (hhead : (b.image m).headerOk = true) (hn : n < (b.image m).ePhnum) {rs : List Range}
    (hok : (loadSegment b n ⟨m',rs⟩).1 = true) : Done b m (n+1) (loadSegment b n ⟨m',rs⟩).2.mem := by
  have hsame := h.sameBuffer hs
  have hin := phdrOff_inside hs hhead hn
  simp only [phdrSize] at hin
  have hph := hsame.phdr hlen (i := n) (by omega)
  by_cases hc : Copied (b.image m) n
  · obtain ⟨hout,hmem⟩ := @loadSegment_copy b n ⟨m',rs⟩ (hph ▸ hc.1.2) (hph ▸ hc.2) hok
    rw [hmem]
    exact h.fill hs (by omega) (hsame.phdrOff hlen n) hc hout
  · have hskip : ((b.image m').phdr n).type = 1 → ((b.image m').phdr n).filesz = 0 := by
      rw [hph]
      intro ht
      by_contra hf
      exact hc ⟨⟨hn,ht⟩,hf⟩
    rw [(@loadSegment_skip b n ⟨m',rs⟩ hskip).2]
    exact h.skip hc

theorem Done.loop (hs : Separate b m) (hlen : ehdrSize ≤ b.len) (hhead : (b.image m).headerOk = true) {fuel : ℕ}
    {rs : List Range} (h : Done b m n m') (hn : n ≤ (b.image m).ePhnum) (hfuel : (b.image m).ePhnum < n + fuel)
    (hok : (loadSegments b fuel n ⟨m',rs⟩).1 = true) :
    Done b m (b.image m).ePhnum (loadSegments b fuel n ⟨m',rs⟩).2.mem := by
  induction fuel generalizing n m' rs with
  | zero => omega
  | succ fuel ih =>
    have hnum := (h.sameBuffer hs).ePhnum hlen
    rw [loadSegments] at hok ⊢
    dsimp only at hok ⊢
    by_cases hlt : n < (b.image m).ePhnum
    · rw [hnum,if_pos hlt] at hok ⊢
      have hstep := @Done.step _ _ _ _ h hs hlen hhead hlt ((44,2) :: rs)
      rcases hres : loadSegment b n ⟨m',(44,2) :: rs⟩ with ⟨ok,mem,reads⟩
      rw [hres] at hok hstep
      cases ok with
      | false => cases hok
      | true => exact ih (hstep rfl) hlt (by omega) hok
    · rw [hnum,if_neg hlt]
      obtain rfl : n = (b.image m).ePhnum := by omega
      exact h

end Loop

theorem ePhnum_lt (img : Image) : img.ePhnum < 65536 := by
  have h0 := (img.view 44).toNat_lt
  have h1 := (img.view (44+1)).toNat_lt
  rw [Image.ePhnum,read16]
  omega

/-- A load that returns an entry point went through all headers. -/
theorem elfLoadIn_done {b : Buffer} {m : Mem} (hs : Separate b m) (hok : (elfLoadIn b m).1 ≠ 0) :
    Done b m (b.image m).ePhnum (elfLoadIn b m).2.mem := by
  unfold elfLoadIn at hok ⊢
  by_cases harg : b.data = 0 ∨ b.len < ehdrSize
  · rw [if_pos harg] at hok
    exact absurd rfl hok
  by_cases hhead : (b.image m).headerOk = true
  · rw [if_neg harg,if_pos hhead] at hok ⊢
    have hloop : (loadSegments b 65536 0 ⟨m,[(0,ehdrSize)]⟩).1 = true →
        Done b m (b.image m).ePhnum (loadSegments b 65536 0 ⟨m,[(0,ehdrSize)]⟩).2.mem := by
      apply Done.loop hs (by omega) hhead (done_zero b m) (Nat.zero_le _)
      have hlt := ePhnum_lt (b.image m)
      omega
    rcases hres : loadSegments b 65536 0 ⟨m,[(0,ehdrSize)]⟩ with ⟨ok,s⟩
    rw [hres] at hok hloop
    cases ok with
    | false => exact absurd rfl hok
    | true => exact hloop rfl
  · rw [if_neg harg,if_neg hhead] at hok
    exact absurd rfl hok

/-- `elf_load` initialises all segments iff those without bytes in the file are zero already: it skips them. -/
theorem elfLoadIn_initialised_iff {b : Buffer} {m : Mem} (hs : Separate b m) (hok : (elfLoadIn b m).1 ≠ 0) :
    Initialised b m (elfLoadIn b m).2.mem ↔ ∀ i, Segment (b.image m) i → ((b.image m).phdr i).filesz = 0 →
      ∀ k < ((b.image m).phdr i).memsz, m (((b.image m).phdr i).vaddr+k) = 0 := by
  have hdone := elfLoadIn_done hs hok
  have hskipped : ∀ i, Segment (b.image m) i → ((b.image m).phdr i).filesz = 0 →
      ∀ k < ((b.image m).phdr i).memsz,
        (elfLoadIn b m).2.mem (((b.image m).phdr i).vaddr+k) = m (((b.image m).phdr i).vaddr+k) := by
    intro i hi hz k hk
    apply hdone.kept
    intro j _ hj
    have hne : i ≠ j := by
      rintro rfl
      exact hj.2 hz
    exact hs.disjoint i j hi hj.1 hne _ ⟨by omega,by omega⟩
  constructor
  · intro h i hi hz k hk
    have hzero := h.segment i hi k hk
    rw [hz,if_neg (Nat.not_lt_zero k)] at hzero
    rw [← hskipped i hi hz k hk]
    exact hzero
  · intro h
    constructor
    · intro i hi k hk
      by_cases hz : ((b.image m).phdr i).filesz = 0
      · rw [hskipped i hi hz k hk,h i hi hz k hk,hz,if_neg (Nat.not_lt_zero k)]
      · exact hdone.filled i hi.1 ⟨hi,hz⟩ k hk
    · intro x hx
      exact hdone.kept x fun i _ hc => hx i hc.1

/-! ## Images with one segment -/

theorem separate_one {b : Buffer} {m : Mem} {ph : Phdr} (hent : (b.image m).ePhentsize = phdrSize)
    (hnum : (b.image m).ePhnum = 1) (hoff : (b.image m).ePhoff = ehdrSize) (hph : (b.image m).phdr 0 = ph)
    (hsize : ph.filesz ≤ ph.memsz) (hfile : ph.offset + ph.filesz < 2^32) (hmem : ph.vaddr + ph.memsz ≤ 2^32)
    (hbuf : b.data + b.len ≤ ph.vaddr) : Separate b m := by
  have hzero : ∀ i, Segment (b.image m) i → i = 0 := by
    intro i hi
    have hlt := hi.1
    omega
  constructor
  · exact hent
  · rw [hnum,hoff]
    decide
  · intro i hi
    rw [hzero i hi,hph]
    exact hsize
  · intro i hi
    rw [hzero i hi,hph]
    exact hfile
  · intro i hi
    rw [hzero i hi,hph]
    exact hmem
  · intro i j hi hj hne
    exact absurd ((hzero i hi).trans (hzero j hj).symm) hne
  · intro i hi x hx
    rw [hzero i hi,hph] at hx
    exact Or.inr (le_trans hbuf hx.1)

/-- An image with the one program header `ph`, at 2 MiB in memory that holds 0xAA elsewhere. -/
def oneSegment (ph : Phdr) : Mem := fun x =>
  if 0x200000 ≤ x ∧ x < 0x200054 then (imageBytes 0x300000 [ph]).getD (x-0x200000) 0 else 0xAA

def sampleBuffer : Buffer := ⟨0x200000,84,by decide,by decide⟩

/-- The image itself as its one segment, with 16 zero bytes behind it. -/
theorem elfLoadIn_initialised_sample : (elfLoadIn sampleBuffer (oneSegment ⟨1,0,0x300000,84,100⟩)).1 = 0x300000 ∧
    Initialised sampleBuffer (oneSegment ⟨1,0,0x300000,84,100⟩)
      (elfLoadIn sampleBuffer (oneSegment ⟨1,0,0x300000,84,100⟩)).2.mem := by
  have hph : (sampleBuffer.image (oneSegment ⟨1,0,0x300000,84,100⟩)).phdr 0 = ⟨1,0,0x300000,84,100⟩ := by
    decide +kernel
  have hs : Separate sampleBuffer (oneSegment ⟨1,0,0x300000,84,100⟩) :=
    separate_one (by decide +kernel) (by decide +kernel) (by decide +kernel) hph (by decide) (by decide) (by decide)
      (by decide)
  have hok : (elfLoadIn sampleBuffer (oneSegment ⟨1,0,0x300000,84,100⟩)).1 = 0x300000 := by decide +kernel
  refine ⟨hok,(elfLoadIn_initialised_iff hs (by rw [hok]; decide)).mpr ?_⟩
  intro i hi hz
  have hnum : (sampleBuffer.image (oneSegment ⟨1,0,0x300000,84,100⟩)).ePhnum = 1 := by decide +kernel
  have hlt := hi.1
  obtain rfl : i = 0 := by omega
  rw [hph] at hz
  cases hz

/-- A segment of 16 bytes that are all BSS keeps what was in memory. -/
theorem bss_not_zeroed : Separate sampleBuffer (oneSegment ⟨1,0,0x300000,0,16⟩) ∧
    (elfLoadIn sampleBuffer (oneSegment ⟨1,0,0x300000,0,16⟩)).1 = 0x300000 ∧
    (elfLoadIn sampleBuffer (oneSegment ⟨1,0,0x300000,0,16⟩)).2.mem 0x300000 = 0xAA ∧
    ¬ Initialised sampleBuffer (oneSegment ⟨1,0,0x300000,0,16⟩)
      (elfLoadIn sampleBuffer (oneSegment ⟨1,0,0x300000,0,16⟩)).2.mem := by
  have hph : (sampleBuffer.image (oneSegment ⟨1,0,0x300000,0,16⟩)).phdr 0 = ⟨1,0,0x300000,0,16⟩ := by decide +kernel
  have hnum : (sampleBuffer.image (oneSegment ⟨1,0,0x300000,0,16⟩)).ePhnum = 1 := by decide +kernel
  have hs : Separate sampleBuffer (oneSegment ⟨1,0,0x300000,0,16⟩) :=
    separate_one (by decide +kernel) hnum (by decide +kernel) hph (by decide) (by decide) (by decide) (by decide)
  have hbyte : (elfLoadIn sampleBuffer (oneSegment ⟨1,0,0x300000,0,16⟩)).2.mem 0x300000 = 0xAA := by decide +kernel
  refine ⟨hs,by decide +kernel,hbyte,?_⟩
  intro h
  have hzero := h.segment 0 ⟨by rw [hnum]; decide,by rw [hph]⟩ 0 (by rw [hph]; decide)
  rw [hph,if_neg (by decide)] at hzero
  exact absurd (hbyte.symm.trans hzero) (by decide)

end VesperOS.KernelSegments
