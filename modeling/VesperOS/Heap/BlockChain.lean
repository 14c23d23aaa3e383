import VesperOS.Heap.Kmem

/-! # The block list as a tiling of the heap

The abstract heap is a list of blocks that fills `heap_storage` without gaps.
`Chain` says that memory represents such a list: each block's header stands at
its offset and its `next` is the address where the following block starts. Each
function of `kmem.c` is an edit of the list.
-/
namespace VesperOS.BlockChain
open ByteMemory Kmem Tiling

structure Block where
  size : ℕ
  free : Bool
  deriving DecidableEq

/-- Header and data. -/
def Block.len (b : Block) : ℕ := headerSize + b.size

/-- The address of offset `o`, where the end of the heap is NULL. -/
def addr (H : HeapLayout) (o : ℕ) : ℕ := if o = heapSize then 0 else H.base + o

theorem addr_of_lt (H : HeapLayout) {o : ℕ} (h : o < heapSize) : addr H o = H.base + o :=
  if_neg (by omega)

theorem addr_lt (H : HeapLayout) {o : ℕ} (h : o ≤ heapSize) : addr H o < 2^32 := by
  have := H.fits
  unfold addr
  split
  · decide
  · omega

structure Header (H : HeapLayout) (m : Mem) (o : ℕ) (b : Block) : Prop where
  size : blockSize m (H.base+o) = b.size
  free : blockFree m (H.base+o) = if b.free then 1 else 0
  magic : blockMagic m (H.base+o) = heapMagic
  next : blockNext m (H.base+o) = addr H (o+b.len)
  aligned : b.size % 4 = 0

structure Chain (H : HeapLayout) (m : Mem) (bs : List Block) : Prop where
  full : span Block.len bs = heapSize
  headers : ∀ o b, (o,b) ∈ place Block.len 0 bs → Header H m o b

theorem Header.congr {H : HeapLayout} {m m' : Mem} {o : ℕ} {b : Block} (h : Header H m o b)
    (hm : ∀ x, H.base+o ≤ x → x < H.base+o+headerSize → m' x = m x) : Header H m' o b := by
  have hword : ∀ k, k + 4 ≤ headerSize → read32 m' (H.base+o+k) = read32 m (H.base+o+k) := by
    intro k hk
    exact read32_congr fun x h1 h2 => hm x (by omega) (by omega)
  refine ⟨(hword 0 (by decide)).trans h.size,(hword 4 (by decide)).trans h.free,
    (hword 8 (by decide)).trans h.magic,(hword 12 (by decide)).trans h.next,h.aligned⟩

/-- From `m` to `m'` only bytes of headers of `bs` change. -/
def OnlyHeaders (H : HeapLayout) (m m' : Mem) (bs : List Block) : Prop :=
  ∀ x, m' x = m x ∨ ∃ o b, (o,b) ∈ place Block.len 0 bs ∧ H.base+o ≤ x ∧ x < H.base+o+headerSize

theorem OnlyHeaders.data {H : HeapLayout} {m m' : Mem} {bs : List Block} (h : OnlyHeaders H m m' bs)
    {o : ℕ} {b : Block} (hb : (o,b) ∈ place Block.len 0 bs) {x : ℕ} (hx : H.base+o+headerSize ≤ x)
    (hx' : x < H.base+o+headerSize+b.size) : m' x = m x := by
  rcases h x with he | ⟨o',c,hc,h1,h2⟩
  · exact he
  · have hdis := place_disjoint hb hc
    simp only [Block.len] at hdis
    omega

section Edit
variable {H : HeapLayout} {m : Mem} {pre post : List Block} {b : Block}

theorem Chain.mid_mem : (span Block.len pre,b) ∈ place Block.len 0 (pre++b :: post) := by
  rw [place_append,Nat.zero_add,place]
  exact List.mem_append_right _ List.mem_cons_self

theorem Chain.mid (h : Chain H m (pre++b :: post)) : Header H m (span Block.len pre) b :=
  h.headers _ _ Chain.mid_mem

theorem Chain.mid_le (h : Chain H m (pre++b :: post)) :
    span Block.len pre + headerSize + b.size + span Block.len post = heapSize := by
  have hf := h.full
  rw [span_append,span_cons,Block.len] at hf
  omega

theorem Chain.seam (h : Chain H m (pre++b :: post)) : Chain H m (pre++[b]++post) := by
  rw [List.append_assoc]
  exact h

/-- Replace a stretch of blocks by blocks of the same total length. -/
theorem Chain.replace {old : List Block} (h : Chain H m (pre++old++post)) {mid : List Block} {m' : Mem}
    (hmid : span Block.len mid = span Block.len old)
    (hm : ∀ x, x < H.base+span Block.len pre ∨ H.base+span Block.len pre+span Block.len old ≤ x → m' x = m x)
    (hnew : ∀ o c, (o,c) ∈ place Block.len (span Block.len pre) mid → Header H m' o c) :
    Chain H m' (pre++mid++post) := by
  constructor
  · have hf := h.full
    rw [span_append,span_append] at hf ⊢
    rw [hmid]
    exact hf
  · intro o c hc
    have hold : ∀ e : ℕ × Block, e ∈ place Block.len 0 pre ∨
        e ∈ place Block.len (span Block.len pre+span Block.len old) post →
        e ∈ place Block.len 0 (pre++old++post) := by
      intro e he
      rw [mem_place_replace,Nat.zero_add]
      tauto
    rw [mem_place_replace,Nat.zero_add,hmid] at hc
    rcases hc with hc | hc | hc
    · refine (h.headers o c (hold _ (Or.inl hc))).congr fun x h1 h2 => hm x (Or.inl ?_)
      have hb := mem_place_bounds hc
      simp only [Block.len] at hb
      omega
    · exact hnew o c hc
    · refine (h.headers o c (hold _ (Or.inr hc))).congr fun x h1 h2 => hm x (Or.inr ?_)
      have hb := mem_place_bounds hc
      omega

end Edit

theorem Chain.length_le {H : HeapLayout} {m : Mem} {bs : List Block} (h : Chain H m bs) :
    bs.length * headerSize ≤ heapSize := by
  have hle : ∀ xs : List Block, xs.length * headerSize ≤ span Block.len xs := by
    intro xs
    induction xs with
    | nil => simp
    | cons x xs ih =>
      rw [List.length_cons,span_cons,Block.len]
      simp only [headerSize] at *
      omega
  exact h.full ▸ hle bs

/-! ## Taking a block -/

def taken (b : Block) (size : ℕ) : List Block :=
  if size+headerSize+4 ≤ b.size then [⟨size,false⟩,⟨b.size-size-headerSize,true⟩] else [⟨b.size,false⟩]

theorem span_taken {b : Block} {size : ℕ} : span Block.len (taken b size) = b.len := by
  simp only [taken]
  split
  · simp only [span_cons,span_nil,Block.len]
    omega
  · simp only [span_cons,span_nil,Block.len,Nat.add_zero]

/-- The block keeps its size: only the free word changes. -/
theorem header_setFree {H : HeapLayout} {m : Mem} {o : ℕ} {b : Block} (h : Header H m o b) (f : Bool) :
    Header H (setFree m (H.base+o) (if f then 1 else 0)) o ⟨b.size,f⟩ := by
  obtain ⟨h1,_,h3,h4,h5⟩ := h
  simp only [blockSize,blockMagic,blockNext] at h1 h3 h4
  constructor
  · simp (disch := omega) only [blockSize,setFree,read32_write32_of_disjoint]
    exact h1
  · simp only [blockFree,setFree,read32_write32_same]
    cases f <;> rfl
  · simp (disch := omega) only [blockMagic,setFree,read32_write32_of_disjoint]
    exact h3
  · simp (disch := omega) only [blockNext,setFree,read32_write32_of_disjoint]
    exact h4
  · exact h5

section Take
variable {H : HeapLayout} {m : Mem} {pre post : List Block} {b : Block} {size : ℕ}

/-- The writes of a split, with the 32-bit sums evaluated. -/
theorem takeBlock_split {p : ℕ} (hs : blockSize m p = b.size) (hp : p + headerSize + b.size ≤ 2^32)
    (hsplit : size+headerSize+4 ≤ b.size) :
    (takeBlock m p size).2 = setFree (setSize (setNext (setNext (setMagic (setFree
      (setSize m (p+headerSize+size) (b.size-size-headerSize)) (p+headerSize+size) 1)
      (p+headerSize+size) heapMagic) (p+headerSize+size) (blockNext m p)) p (p+headerSize+size)) p size) p 0 := by
  simp only [headerSize] at *
  have h1 : (size+16+4) % 2^32 = size+16+4 := Nat.mod_eq_of_lt (by omega)
  have h2 : (p+16+size) % 2^32 = p+16+size := Nat.mod_eq_of_lt (by omega)
  have h3 : (b.size+(2^32-size)+(2^32-16)) % 2^32 = b.size-size-16 := by omega
  have h4 : ∀ v, blockNext (setMagic (setFree (setSize m (p+16+size) v) (p+16+size) 1) (p+16+size) heapMagic) p =
      blockNext m p := by
    intro v
    simp (disch := omega) only [blockNext,setMagic,setFree,setSize,read32_write32_of_disjoint]
  simp only [takeBlock,headerSize,hs,h1,h2,h3,h4,if_pos hsplit]

theorem takeBlock_whole {p : ℕ} (hs : blockSize m p = b.size) (hb : b.size ≤ heapSize)
    (hfit : size ≤ b.size) (hsplit : ¬ size+headerSize+4 ≤ b.size) :
    (takeBlock m p size).2 = setFree m p 0 := by
  simp only [headerSize,heapSize] at *
  have h1 : ¬ (size+16+4) % 2^32 ≤ b.size := by omega
  simp only [takeBlock,headerSize,hs,if_neg h1]

section Split
variable {o : ℕ} (h : Header H m o b) (hle : o + headerSize + b.size + span Block.len post = heapSize)
  (hsplit : size+headerSize+4 ≤ b.size) (hal : size % 4 = 0)
include h hle hsplit hal

theorem header_splitFirst :
    Header H (setFree (setSize (setNext (setNext (setMagic (setFree
      (setSize m (H.base+o+headerSize+size) (b.size-size-headerSize)) (H.base+o+headerSize+size) 1)
      (H.base+o+headerSize+size) heapMagic) (H.base+o+headerSize+size) (blockNext m (H.base+o)))
      (H.base+o) (H.base+o+headerSize+size)) (H.base+o) size) (H.base+o) 0) o ⟨size,false⟩ := by
  have hmg := h.magic
  have hH := H.fits
  simp only [blockMagic,headerSize,heapSize] at *
  have hlen : o + Block.len ⟨size,false⟩ < heapSize := by
    simp only [Block.len,headerSize,heapSize]
    omega
  constructor
  · simp (disch := omega) only [blockSize,setFree,setSize,read32_write32_of_disjoint,read32_write32_same]
    omega
  · simp only [blockFree,setFree,read32_write32_same]
    rfl
  · simp (disch := omega) only [blockMagic,setFree,setSize,setNext,setMagic,read32_write32_of_disjoint]
    exact hmg
  · simp (disch := omega) only [blockNext,setFree,setSize,setNext,read32_write32_of_disjoint,read32_write32_same]
    rw [addr_of_lt H hlen]
    simp only [Block.len,headerSize]
    omega
  · exact hal

theorem header_splitRest :
    Header H (setFree (setSize (setNext (setNext (setMagic (setFree
      (setSize m (H.base+o+headerSize+size) (b.size-size-headerSize)) (H.base+o+headerSize+size) 1)
      (H.base+o+headerSize+size) heapMagic) (H.base+o+headerSize+size) (blockNext m (H.base+o)))
      (H.base+o) (H.base+o+headerSize+size)) (H.base+o) size) (H.base+o) 0) (o+Block.len ⟨size,false⟩)
      ⟨b.size-size-headerSize,true⟩ := by
  have hnx := h.next
  have hbal := h.aligned
  have hH := H.fits
  have hend : o + Block.len ⟨size,false⟩ + Block.len ⟨b.size-size-headerSize,true⟩ = o + b.len := by
    simp only [Block.len,headerSize] at *
    omega
  have hlt : addr H (o+b.len) < 2^32 := addr_lt H (by simp only [Block.len]; omega)
  simp only [headerSize,heapSize] at *
  have hadr : H.base + (o + Block.len ⟨size,false⟩) = H.base+o+16+size := by
    simp only [Block.len,headerSize]
    omega
  constructor
  · rw [hadr]
    simp (disch := omega) only [blockSize,setFree,setSize,setNext,setMagic,read32_write32_of_disjoint,
      read32_write32_same]
    omega
  · rw [hadr]
    simp (disch := omega) only [blockFree,setFree,setSize,setNext,setMagic,read32_write32_of_disjoint,
      read32_write32_same]
    rfl
  · rw [hadr]
    simp (disch := omega) only [blockMagic,setFree,setSize,setNext,setMagic,read32_write32_of_disjoint,
      read32_write32_same]
    rfl
  · rw [hadr,hend]
    simp (disch := omega) only [blockNext,setFree,setSize,setNext,read32_write32_of_disjoint,read32_write32_same]
    simp only [blockNext] at hnx
    rw [hnx,Nat.mod_eq_of_lt hlt]
  · dsimp only
    omega

end Split

theorem takeBlock_spec (h : Chain H m (pre++b :: post)) (hal : size % 4 = 0) (hfit : size ≤ b.size) :
    Chain H (takeBlock m (H.base+span Block.len pre) size).2 (pre++taken b size++post) := by
  have hmid := h.mid
  have hle := h.mid_le
  have hH := H.fits
  have hp : H.base + span Block.len pre + headerSize + b.size ≤ 2^32 := by omega
  by_cases hsplit : size+headerSize+4 ≤ b.size
  · rw [takeBlock_split hmid.size hp hsplit]
    refine h.seam.replace (span_taken.trans (Nat.add_zero _).symm) ?_ ?_
    · intro x hx
      simp only [span_cons,span_nil,Block.len,headerSize] at hx hsplit hle
      simp (disch := omega) only [headerSize,setFree,setSize,setNext,setMagic,write32_of_outside]
    · intro o c hc
      simp only [taken,if_pos hsplit,place,List.mem_cons,Prod.mk.injEq,List.not_mem_nil,or_false] at hc
      have hbal := hmid.aligned
      rcases hc with ⟨rfl,rfl⟩ | ⟨rfl,rfl⟩
      · exact header_splitFirst hmid hle hsplit hal
      · exact header_splitRest hmid hle hsplit hal
  · rw [takeBlock_whole hmid.size (by omega) hfit hsplit]
    refine h.seam.replace (span_taken.trans (Nat.add_zero _).symm) ?_ ?_
    · intro x hx
      simp only [span_cons,span_nil,Block.len,headerSize] at hx
      simp (disch := omega) only [setFree,write32_of_outside]
    · intro o c hc
      simp only [taken,if_neg hsplit,place,List.mem_cons,Prod.mk.injEq,List.not_mem_nil,or_false] at hc
      obtain ⟨rfl,rfl⟩ := hc
      exact header_setFree hmid false

theorem takeBlock_onlyHeaders (h : Chain H m (pre++b :: post)) (hfit : size ≤ b.size) :
    OnlyHeaders H m (takeBlock m (H.base+span Block.len pre) size).2 (pre++taken b size++post) := by
  have hmid := h.mid
  have hle := h.mid_le
  have hH := H.fits
  have hmem : ∀ e : ℕ × Block, e ∈ place Block.len (span Block.len pre) (taken b size) →
      e ∈ place Block.len 0 (pre++taken b size++post) := by
    intro e he
    rw [mem_place_replace,Nat.zero_add]
    exact Or.inr (Or.inl he)
  intro x
  by_cases hsplit : size+headerSize+4 ≤ b.size
  · rw [taken,if_pos hsplit] at hmem ⊢
    simp only [place,List.mem_cons,List.not_mem_nil,or_false] at hmem
    rw [takeBlock_split hmid.size (by omega) hsplit]
    by_cases h1 : H.base+span Block.len pre ≤ x ∧ x < H.base+span Block.len pre+headerSize
    · exact Or.inr ⟨_,_,hmem _ (Or.inl rfl),h1⟩
    by_cases h2 : H.base+span Block.len pre+headerSize+size ≤ x ∧ x < H.base+span Block.len pre+headerSize+size+headerSize
    · refine Or.inr ⟨_,_,hmem _ (Or.inr rfl),?_⟩
      simp only [Block.len]
      omega
    · left
      simp only [headerSize] at *
      simp (disch := omega) only [setFree,setSize,setNext,setMagic,write32_of_outside]
  · rw [taken,if_neg hsplit] at hmem ⊢
    simp only [place,List.mem_cons,List.not_mem_nil,or_false] at hmem
    rw [takeBlock_whole hmid.size (by omega) hfit hsplit]
    by_cases h1 : H.base+span Block.len pre ≤ x ∧ x < H.base+span Block.len pre+headerSize
    · exact Or.inr ⟨_,_,hmem _ rfl,h1⟩
    · left
      simp only [headerSize] at h1
      simp (disch := omega) only [setFree,write32_of_outside]

end Take

/-! ## First fit -/

section Walk
variable {H : HeapLayout} {m : Mem} {pre rest : List Block} {b : Block}

theorem Chain.addr_end (h : Chain H m (pre++[])) : addr H (span Block.len pre) = 0 := by
  have hf := h.full
  rw [List.append_nil] at hf
  rw [hf]
  exact if_pos rfl

theorem Chain.addr_mid (h : Chain H m (pre++b :: rest)) :
    addr H (span Block.len pre) = H.base + span Block.len pre := by
  have hle := h.mid_le
  simp only [headerSize] at hle
  exact addr_of_lt H (by omega)

/-- Following `next` moves the seam one block on. -/
theorem Chain.next_mid (h : Chain H m (pre++b :: rest)) :
    blockNext m (H.base+span Block.len pre) = addr H (span Block.len (pre++[b])) := by
  rw [h.mid.next,span_append,span_cons,span_nil,Nat.add_zero]

theorem Chain.base_ne_zero (H : HeapLayout) (o : ℕ) : H.base + o ≠ 0 := by
  have := H.pos
  omega

theorem kmallocLoop_spec (pre : List Block) {fuel : ℕ} (size : ℕ) (h : Chain H m (pre++rest)) (hfuel : rest.length < fuel) :
    (kmallocLoop m size fuel (addr H (span Block.len pre)) = some (0,m) ∧
      ∀ c ∈ rest, c.free = true → c.size < size) ∨
      ∃ pre' b post, pre++rest = pre'++b :: post ∧ b.free = true ∧ size ≤ b.size ∧
        kmallocLoop m size fuel (addr H (span Block.len pre)) =
          some (takeBlock m (H.base+span Block.len pre') size) := by
  induction rest generalizing pre fuel with
  | nil =>
    obtain ⟨fuel,rfl⟩ : ∃ n, fuel = n+1 := ⟨fuel-1,by simp at hfuel; omega⟩
    left
    constructor
    · rw [h.addr_end,kmallocLoop,if_pos rfl]
    · intro c hc
      cases hc
  | cons b rest ih =>
    obtain ⟨fuel,rfl⟩ : ∃ n, fuel = n+1 := ⟨fuel-1,by omega⟩
    rw [h.addr_mid,kmallocLoop,if_neg (Chain.base_ne_zero H _)]
    have hmid := h.mid
    by_cases hfit : b.free = true ∧ size ≤ b.size
    · right
      refine ⟨pre,b,rest,rfl,hfit.1,hfit.2,?_⟩
      rw [if_pos]
      rw [hmid.free,hmid.size,hfit.1]
      exact ⟨by decide,hfit.2⟩
    · rw [if_neg,h.next_mid]
      · have hfuel' : rest.length < fuel := by
          simp only [List.length_cons] at hfuel
          omega
        rw [List.append_cons] at h
        have hrest := ih (pre++[b]) h hfuel'
        rw [List.append_assoc pre [b] rest] at hrest
        rcases hrest with ⟨hnull,hsmall⟩ | htake
        · left
          refine ⟨hnull,?_⟩
          intro c hc hf
          rcases List.mem_cons.mp hc with rfl | hc
          · exact Nat.lt_of_not_le fun hle => hfit ⟨hf,hle⟩
          · exact hsmall c hc hf
        · exact Or.inr htake
      · intro hc
        rw [hmid.free,hmid.size] at hc
        exact hfit ⟨by by_contra hf; simp [hf] at hc,hc.2⟩

end Walk

/-! ## Merging free neighbours -/

/-- What the walk of `kfree` leaves of the block `b` and the blocks after it. -/
def mergeFrom (b : Block) : List Block → List Block
  | [] => [b]
  | c :: rest =>
    if b.free = true ∧ c.free = true then mergeFrom ⟨b.size+headerSize+c.size,true⟩ rest
    else b :: mergeFrom c rest

/-- The walk never drops the block it starts from. -/
theorem mergeFrom_head (b : Block) (rest : List Block) :
    ∃ d ds, mergeFrom b rest = d :: ds ∧ d.free = b.free := by
  induction rest generalizing b with
  | nil => exact ⟨b,[],rfl,rfl⟩
  | cons c rest ih =>
    rw [mergeFrom]
    split
    · case isTrue hf =>
      obtain ⟨d,ds,hd,he⟩ := ih ⟨b.size+headerSize+c.size,true⟩
      exact ⟨d,ds,hd,he.trans hf.1.symm⟩
    · exact ⟨b,_,rfl,rfl⟩

theorem mem_place_mergeFrom {off o : ℕ} {b c : Block} {rest : List Block} (hc : c.free = false) :
    (o,c) ∈ place Block.len off (mergeFrom b rest) ↔ (o,c) ∈ place Block.len off (b :: rest) := by
  induction rest generalizing off b with
  | nil => rfl
  | cons d rest ih =>
    simp only [mergeFrom]
    split
    · case isTrue hf =>
      have hne : ∀ (x : Block) (o' : ℕ), x.free = true → (o,c) ≠ (o',x) := by
        intro x o' hx he
        cases he
        rw [hc] at hx
        cases hx
      rw [ih]
      simp only [place,List.mem_cons,hne _ _ hf.1,hne _ _ hf.2,hne ⟨_,true⟩ _ rfl,false_or]
      simp only [Block.len,← Nat.add_assoc,Nat.add_right_comm]
    · rw [place,place,List.mem_cons,List.mem_cons,ih]

section Merge
variable {H : HeapLayout} {m : Mem} {pre rest : List Block} {b c : Block}

theorem header_absorb {o : ℕ} (hb : Header H m o b) (hc : Header H m (o+b.len) c)
    (hle : o + b.len + c.len ≤ heapSize) :
    Header H (setNext (setSize m (H.base+o) (b.size+headerSize+c.size)) (H.base+o)
      (blockNext m (H.base+(o+b.len)))) o ⟨b.size+headerSize+c.size,b.free⟩ := by
  have hH := H.fits
  have hal := hb.aligned
  have hal' := hc.aligned
  have hf := hb.free
  have hmg := hb.magic
  have hlt : addr H (o+b.len+c.len) < 2^32 := addr_lt H hle
  have hend : o + Block.len ⟨b.size+headerSize+c.size,b.free⟩ = o + b.len + c.len := by
    simp only [Block.len]
    omega
  simp only [blockFree,blockMagic] at hf hmg
  constructor
  · simp (disch := omega) only [blockSize,setSize,setNext,read32_write32_of_disjoint,read32_write32_same]
    simp only [Block.len,headerSize,heapSize] at *
    omega
  · simp (disch := omega) only [blockFree,setSize,setNext,read32_write32_of_disjoint]
    exact hf
  · simp (disch := omega) only [blockMagic,setSize,setNext,read32_write32_of_disjoint]
    exact hmg
  · rw [hc.next,hend]
    simp only [blockNext,setNext,read32_write32_same]
    exact Nat.mod_eq_of_lt hlt
  · simp only [headerSize]
    omega

/-- One merge of the walk, with the 32-bit sum evaluated. -/
theorem coalesce_merge (fuel : ℕ) (h : Chain H m (pre++b :: c :: rest)) (hb : b.free = true) (hc : c.free = true) :
    ∃ m', coalesce (fuel+1) (H.base+span Block.len pre) m = coalesce fuel (H.base+span Block.len pre) m' ∧
      Chain H m' (pre++⟨b.size+headerSize+c.size,true⟩ :: rest) ∧
      ∀ x, x < H.base+span Block.len pre ∨ H.base+span Block.len pre+headerSize ≤ x → m' x = m x := by
  have hmid := h.mid
  have hle := h.mid_le
  have hnext := h.next_mid
  rw [List.append_cons] at h
  have hmid' := h.mid
  have hH := H.fits
  have hspan : span Block.len (pre++[b]) = span Block.len pre + b.len := by
    rw [span_append,span_cons,span_nil,Nat.add_zero]
  rw [h.addr_mid,hspan] at hnext
  rw [hspan] at hmid'
  have hlen : headerSize ≤ b.len := Nat.le_add_right _ _
  simp only [span_cons,Block.len] at hle
  have hsum : (b.size+headerSize+c.size) % 2^32 = b.size+headerSize+c.size := by
    simp only [headerSize,heapSize] at *
    omega
  refine ⟨setNext (setSize m (H.base+span Block.len pre) (b.size+headerSize+c.size)) (H.base+span Block.len pre)
    (blockNext m (H.base+(span Block.len pre+b.len))),?_,?_,?_⟩
  · rw [coalesce,if_neg,if_pos]
    · have hn : ∀ v, blockNext (setSize m (H.base+span Block.len pre) v) (H.base+span Block.len pre) =
          H.base+(span Block.len pre+b.len) := by
        intro v
        rw [← hnext]
        simp (disch := omega) only [blockNext,setSize,read32_write32_of_disjoint]
      have hn' : ∀ v, blockNext (setSize m (H.base+span Block.len pre) v) (H.base+(span Block.len pre+b.len)) =
          blockNext m (H.base+(span Block.len pre+b.len)) := by
        intro v
        simp only [headerSize] at hlen
        simp (disch := omega) only [blockNext,setSize,read32_write32_of_disjoint]
      simp only [hn,hn',hnext,hmid.size,hmid'.size,hsum]
    · rw [hnext,hmid.free,hmid'.free,hb,hc]
      decide
    · rw [hnext]
      have := H.pos
      omega
  · have h' : Chain H m (pre++[b,c]++rest) := by
      rw [List.append_assoc]
      rw [List.append_assoc] at h
      exact h
    rw [List.append_cons]
    apply h'.replace
    · simp only [span_cons,span_nil,Block.len]
      omega
    · intro x hx
      simp only [span_cons,span_nil,Block.len,headerSize] at hx
      simp (disch := omega) only [setSize,setNext,write32_of_outside]
    · intro o d hd
      simp only [place,List.mem_cons,Prod.mk.injEq,List.not_mem_nil,or_false] at hd
      obtain ⟨rfl,rfl⟩ := hd
      have ha := header_absorb hmid hmid' (by simp only [Block.len]; omega)
      rw [hb] at ha
      exact ha
  · intro x hx
    simp only [headerSize] at hx
    simp (disch := omega) only [setSize,setNext,write32_of_outside]

theorem coalesce_spec (pre : List Block) {fuel : ℕ} (h : Chain H m (pre++b :: rest)) (hfuel : rest.length < fuel) :
    ∃ m', coalesce fuel (H.base+span Block.len pre) m = some m' ∧ Chain H m' (pre++mergeFrom b rest) ∧
      ∀ x, m' x = m x ∨ ∃ o d, (o,d) ∈ place Block.len (span Block.len pre) (mergeFrom b rest) ∧
        H.base+o ≤ x ∧ x < H.base+o+headerSize := by
  induction rest generalizing pre b m fuel with
  | nil =>
    obtain ⟨fuel,rfl⟩ : ∃ n, fuel = n+1 := ⟨fuel-1,by simp at hfuel; omega⟩
    refine ⟨m,?_,h,fun x => Or.inl rfl⟩
    rw [coalesce,if_pos]
    right
    rw [h.next_mid]
    rw [List.append_cons] at h
    exact h.addr_end
  | cons c rest ih =>
    obtain ⟨fuel,rfl⟩ : ∃ n, fuel = n+1 := ⟨fuel-1,by omega⟩
    have hfuel' : rest.length < fuel := by
      simp only [List.length_cons] at hfuel
      omega
    by_cases hf : b.free = true ∧ c.free = true
    · obtain ⟨m₁,he,h₁,hout⟩ := coalesce_merge fuel h hf.1 hf.2
      rw [he,mergeFrom,if_pos hf]
      obtain ⟨m',he',h',hw⟩ := ih pre h₁ hfuel'
      refine ⟨m',he',h',?_⟩
      intro x
      rcases hw x with hx | hx
      · by_cases hin : x < H.base+span Block.len pre ∨ H.base+span Block.len pre+headerSize ≤ x
        · exact Or.inl (hx.trans (hout x hin))
        · obtain ⟨d,ds,hd,-⟩ := mergeFrom_head ⟨b.size+headerSize+c.size,true⟩ rest
          refine Or.inr ⟨span Block.len pre,d,?_,by omega⟩
          rw [hd,place]
          exact List.mem_cons_self
      · exact Or.inr hx
    · have hnext := h.next_mid
      have hmid := h.mid
      rw [List.append_cons] at h
      rw [h.addr_mid] at hnext
      obtain ⟨m',he,h',hw⟩ := ih _ h hfuel'
      refine ⟨m',?_,?_,?_⟩
      · rw [coalesce,if_neg,if_neg,hnext]
        · exact he
        · intro hc
          rw [hnext,hmid.free,h.mid.free] at hc
          exact hf ⟨by by_contra hb; simp [hb] at hc,by by_contra hb; simp [hb] at hc⟩
        · rw [hnext]
          have := H.pos
          omega
      · rw [mergeFrom,if_neg hf,List.append_cons]
        exact h'
      · intro x
        rcases hw x with hx | ⟨o,d,hd,hx⟩
        · exact Or.inl hx
        · rw [span_append,span_cons,span_nil,Nat.add_zero] at hd
          rw [mergeFrom,if_neg hf,place]
          exact Or.inr ⟨o,d,List.mem_cons_of_mem _ hd,hx⟩

end Merge

/-! ## The walk of `kmem_info` -/

section Info
variable {H : HeapLayout} {m : Mem} {pre rest : List Block}

def usedBytes (bs : List Block) : ℕ := ((bs.filter (fun b => !b.free)).map Block.size).sum

def freeBytes (bs : List Block) : ℕ := ((bs.filter (fun b => b.free)).map Block.size).sum

theorem usedBytes_add_freeBytes (bs : List Block) :
    usedBytes bs + freeBytes bs + headerSize * bs.length = span Block.len bs := by
  induction bs with
  | nil => rfl
  | cons b bs ih =>
    rw [span_cons,Block.len,List.length_cons,← ih]
    cases hb : b.free <;> simp [usedBytes,freeBytes,hb] <;> ring

theorem infoLoop_spec (pre : List Block) {fuel : ℕ} (used free : ℕ) (h : Chain H m (pre++rest)) (hfuel : rest.length < fuel)
    (hsum : used + free + span Block.len rest ≤ heapSize) :
    infoLoop m fuel (addr H (span Block.len pre)) (used,free) =
      some (used+usedBytes rest,free+freeBytes rest) := by
  induction rest generalizing pre fuel used free with
  | nil =>
    obtain ⟨fuel,rfl⟩ : ∃ n, fuel = n+1 := ⟨fuel-1,by simp at hfuel; omega⟩
    rw [h.addr_end,infoLoop,if_pos rfl]
    rfl
  | cons b rest ih =>
    obtain ⟨fuel,rfl⟩ : ∃ n, fuel = n+1 := ⟨fuel-1,by omega⟩
    have hfuel' : rest.length < fuel := by
      simp only [List.length_cons] at hfuel
      omega
    have hmid := h.mid
    have hnext := h.next_mid
    rw [h.addr_mid,infoLoop,if_neg (Chain.base_ne_zero H _),hmid.free,hmid.size,hnext]
    rw [List.append_cons] at h
    simp only [span_cons,Block.len,headerSize,heapSize] at hsum
    cases hb : b.free with
    | true =>
      rw [if_pos (by decide),ih _ _ _ h hfuel' (by simp only [heapSize]; omega)]
      simp only [usedBytes,freeBytes,List.filter_cons,hb,Bool.not_true,List.map_cons,List.sum_cons,if_true]
      rw [Nat.mod_eq_of_lt (by omega),Nat.add_assoc]
      rfl
    | false =>
      rw [if_neg (by decide),ih _ _ _ h hfuel' (by simp only [heapSize]; omega)]
      simp only [usedBytes,freeBytes,List.filter_cons,hb,Bool.not_false,List.map_cons,List.sum_cons,if_true]
      rw [Nat.mod_eq_of_lt (by omega),Nat.add_assoc]
      rfl

theorem blockList_spec (pre : List Block) {fuel : ℕ} (h : Chain H m (pre++rest)) (hfuel : rest.length < fuel) :
    blockList m fuel (addr H (span Block.len pre)) =
      some ((place Block.len (span Block.len pre) rest).map (fun e => H.base+e.1)) := by
  induction rest generalizing pre fuel with
  | nil =>
    obtain ⟨fuel,rfl⟩ : ∃ n, fuel = n+1 := ⟨fuel-1,by simp at hfuel; omega⟩
    rw [h.addr_end,blockList,if_pos rfl]
    rfl
  | cons b rest ih =>
    obtain ⟨fuel,rfl⟩ : ∃ n, fuel = n+1 := ⟨fuel-1,by omega⟩
    have hfuel' : rest.length < fuel := by
      simp only [List.length_cons] at hfuel
      omega
    have hnext := h.next_mid
    rw [h.addr_mid,blockList,if_neg (Chain.base_ne_zero H _),hnext]
    rw [List.append_cons] at h
    rw [ih _ h hfuel',span_append,span_cons,span_nil,Nat.add_zero]
    rfl

end Info

end VesperOS.BlockChain
