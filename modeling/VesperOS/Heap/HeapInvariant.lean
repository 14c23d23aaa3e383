import VesperOS.Heap.BlockChain
import Mathlib.Data.Finset.Insert

/-! # The heap over whole runs

A run starts with `kmem_init` on arbitrary memory and continues with `kmalloc` of
any size, `kfree` of NULL or of a live pointer, and stores of the clients into
the data areas they own. In every state of a run the block list tiles the heap and its
allocated blocks are the live allocations.
-/
namespace VesperOS.HeapInvariant
open ByteMemory Kmem Tiling BlockChain

/-- The heap, and the pointers `kmalloc` returned that are not freed since. -/
structure HeapRun where
  heap : Heap
  live : Finset ℕ

/-- The data bytes of the allocation at `p`. -/
def dataSize (m : Mem) (p : ℕ) : ℕ := blockSize m (p-headerSize)

inductive HeapStep : HeapRun → HeapRun → Prop
  | kmalloc (r : HeapRun) (size p : ℕ) (h : Heap) : size < 2^32 → Kmem.kmalloc r.heap size = some (p,h) →
      HeapStep r ⟨h,if p = 0 then r.live else insert p r.live⟩
  | kfree (r : HeapRun) (p : ℕ) (h : Heap) : p = 0 ∨ p ∈ r.live → Kmem.kfree r.heap p = some h →
      HeapStep r ⟨h,r.live.erase p⟩
  | store (r : HeapRun) (p x : ℕ) (v : UInt8) : p ∈ r.live → p ≤ x → x < p + dataSize r.heap.mem p →
      HeapStep r ⟨{ r.heap with mem := Function.update r.heap.mem x v },r.live⟩

inductive Reachable (H : HeapLayout) : HeapRun → Prop
  | boot (m : Mem) : Reachable H ⟨kmemInit H m,∅⟩
  | step {r r' : HeapRun} : Reachable H r → HeapStep r r' → Reachable H r'

/-- The block list as the code walks it. -/
structure WellFormed (H : HeapLayout) (r : HeapRun) (ps : List ℕ) : Prop where
  walk : blockList r.heap.mem walkFuel r.heap.head = some ps
  head : r.heap.head = H.base ∧ ps.head? = some H.base
  next : ∀ p ∈ ps, p + headerSize + blockSize r.heap.mem p ≤ H.base + heapSize ∧
    blockNext r.heap.mem p = if p + headerSize + blockSize r.heap.mem p = H.base + heapSize then 0
      else p + headerSize + blockSize r.heap.mem p
  size : ∀ p ∈ ps, blockSize r.heap.mem p % 4 = 0
  magic : ∀ p ∈ ps, blockMagic r.heap.mem p = heapMagic
  live : ∀ q, q ∈ r.live ↔ ∃ p ∈ ps, blockFree r.heap.mem p = 0 ∧ q = p + headerSize
  inside : ∀ p ∈ r.live, H.base ≤ p ∧ p + dataSize r.heap.mem p ≤ H.base + heapSize
  disjoint : ∀ p ∈ r.live, ∀ q ∈ r.live, p ≠ q →
    p + dataSize r.heap.mem p ≤ q ∨ q + dataSize r.heap.mem q ≤ p
  info : ∃ used free, kmemInfo r.heap = some (used,free,heapSize) ∧
    used + free + headerSize * ps.length = heapSize

/-! ## The invariant -/

def Live (H : HeapLayout) (bs : List Block) (p : ℕ) : Prop :=
  ∃ o b, (o,b) ∈ place Block.len 0 bs ∧ b.free = false ∧ p = H.base + o + headerSize

structure Tiled (H : HeapLayout) (r : HeapRun) (bs : List Block) : Prop where
  head : r.heap.head = H.base
  chain : Chain H r.heap.mem bs
  live : ∀ p, p ∈ r.live ↔ Live H bs p

variable {H : HeapLayout}

theorem addr_zero (H : HeapLayout) : addr H 0 = H.base := addr_of_lt H (by decide)

theorem Chain.length_lt {m : Mem} {bs : List Block} (h : Chain H m bs) : bs.length < walkFuel := by
  have hl := h.length_le
  simp only [headerSize,heapSize,walkFuel] at *
  omega

theorem live_replace_free (pre post : List Block) {b : Block} {mid : List Block} (hb : b.free = true)
    (hmid : span Block.len mid = b.len) (p : ℕ) :
    Live H (pre++mid++post) p ↔ Live H (pre++b :: post) p ∨
      ∃ o c, (o,c) ∈ place Block.len (span Block.len pre) mid ∧ c.free = false ∧ p = H.base + o + headerSize := by
  have hone : ∀ e : ℕ × Block, e ∈ place Block.len 0 (pre++b :: post) ↔ e ∈ place Block.len 0 pre ∨
      e = (span Block.len pre,b) ∨ e ∈ place Block.len (span Block.len pre+b.len) post := by
    intro e
    rw [place_append,Nat.zero_add,place,List.mem_append,List.mem_cons]
  constructor
  · rintro ⟨o,c,hc,hf,rfl⟩
    rw [mem_place_replace,Nat.zero_add,hmid] at hc
    rcases hc with hc | hc | hc
    · exact Or.inl ⟨o,c,(hone _).mpr (Or.inl hc),hf,rfl⟩
    · exact Or.inr ⟨o,c,hc,hf,rfl⟩
    · exact Or.inl ⟨o,c,(hone _).mpr (Or.inr (Or.inr hc)),hf,rfl⟩
  · rintro (⟨o,c,hc,hf,rfl⟩ | ⟨o,c,hc,hf,rfl⟩)
    · refine ⟨o,c,?_,hf,rfl⟩
      rw [mem_place_replace,Nat.zero_add,hmid]
      rcases (hone _).mp hc with hc | hc | hc
      · exact Or.inl hc
      · cases hc
        rw [hb] at hf
        cases hf
      · exact Or.inr (Or.inr hc)
    · refine ⟨o,c,?_,hf,rfl⟩
      rw [mem_place_replace,Nat.zero_add]
      exact Or.inr (Or.inl hc)

theorem mem_place_taken {o size : ℕ} {b : Block} (p : ℕ) :
    (∃ o' c, (o',c) ∈ place Block.len o (taken b size) ∧ c.free = false ∧ p = H.base + o' + headerSize) ↔
      p = H.base + o + headerSize := by
  unfold taken
  split
  · constructor
    · rintro ⟨o',c,hc,hf,rfl⟩
      simp only [place,List.mem_cons,Prod.mk.injEq,List.not_mem_nil,or_false] at hc
      rcases hc with ⟨rfl,rfl⟩ | ⟨rfl,rfl⟩
      · rfl
      · cases hf
    · intro hp
      exact ⟨o,⟨size,false⟩,List.mem_cons_self,rfl,hp⟩
  · simp [place]

theorem roundUp_aligned (size : ℕ) : roundUp size % 4 = 0 := Nat.mul_mod_left _ _

theorem Tiled.boot (H : HeapLayout) (m : Mem) :
    Tiled H ⟨kmemInit H m,∅⟩ [⟨heapSize-headerSize,true⟩] := by
  have hlen : Block.len ⟨heapSize-headerSize,true⟩ = heapSize := by decide
  constructor
  · rfl
  · constructor
    · rw [span_cons,span_nil,hlen,Nat.add_zero]
    · intro o b hb
      simp only [place,List.mem_cons,Prod.mk.injEq,List.not_mem_nil,or_false] at hb
      obtain ⟨rfl,rfl⟩ := hb
      constructor
      · simp (disch := omega) only [kmemInit,blockSize,setSize,setFree,setMagic,setNext,Nat.add_zero,
          read32_write32_of_disjoint,read32_write32_same]
        decide
      · simp (disch := omega) only [kmemInit,blockFree,setSize,setFree,setMagic,setNext,Nat.add_zero,
          read32_write32_of_disjoint,read32_write32_same]
        decide
      · simp (disch := omega) only [kmemInit,blockMagic,setSize,setFree,setMagic,setNext,Nat.add_zero,
          read32_write32_of_disjoint,read32_write32_same]
        decide
      · simp (disch := omega) only [kmemInit,blockNext,setSize,setFree,setMagic,setNext,Nat.add_zero,
          read32_write32_same]
        rw [hlen,Nat.zero_add,addr,if_pos rfl,Nat.zero_mod]
      · decide
  · intro p
    simp [Live,place]

/-! ## One step -/

section Step
variable {r : HeapRun} {bs : List Block}

/-- First fit: NULL when no free block is large enough, and otherwise a block that is. -/
theorem Tiled.kmalloc_cases (h : Tiled H r bs) {size : ℕ} (hz : size ≠ 0) :
    (Kmem.kmalloc r.heap size = some (0,r.heap) ∧ ∀ c ∈ bs, c.free = true → c.size < roundUp size) ∨
      ∃ pre b post, bs = pre++b :: post ∧ b.free = true ∧ roundUp size ≤ b.size ∧
        Kmem.kmalloc r.heap size = some (H.base+span Block.len pre+headerSize,
          ⟨(takeBlock r.heap.mem (H.base+span Block.len pre) (roundUp size)).2,r.heap.head⟩) := by
  rw [Kmem.kmalloc,if_neg hz,h.head]
  have hloop := kmallocLoop_spec [] (roundUp size) h.chain (Chain.length_lt h.chain)
  rw [span_nil,addr_zero] at hloop
  rcases hloop with ⟨hnull,hsmall⟩ | ⟨pre,b,post,hbs,hb,hfit,htake⟩
  · left
    refine ⟨?_,hsmall⟩
    rw [hnull,← h.head]
    rfl
  · right
    refine ⟨pre,b,post,hbs,hb,hfit,?_⟩
    rw [htake]
    rfl

theorem Tiled.take {pre post : List Block} {b : Block} {size : ℕ} (h : Tiled H r (pre++b :: post)) (hb : b.free = true)
    (hfit : roundUp size ≤ b.size) :
    Tiled H ⟨⟨(takeBlock r.heap.mem (H.base+span Block.len pre) (roundUp size)).2,r.heap.head⟩,
      insert (H.base+span Block.len pre+headerSize) r.live⟩ (pre++taken b (roundUp size)++post) := by
  constructor
  · exact h.head
  · exact takeBlock_spec h.chain (roundUp_aligned size) hfit
  · intro p
    rw [live_replace_free pre post hb span_taken,mem_place_taken,Finset.mem_insert,h.live,or_comm]

theorem Tiled.kmalloc (h : Tiled H r bs) (size : ℕ) :
    ∃ p h' bs', Kmem.kmalloc r.heap size = some (p,h') ∧
      Tiled H ⟨h',if p = 0 then r.live else insert p r.live⟩ bs' := by
  have hsame : Tiled H ⟨r.heap,if (0 : ℕ) = 0 then r.live else insert 0 r.live⟩ bs := by
    rw [if_pos rfl]
    exact h
  by_cases hz : size = 0
  · refine ⟨0,r.heap,bs,?_,hsame⟩
    rw [Kmem.kmalloc,if_pos hz]
  rcases h.kmalloc_cases hz with ⟨hnull,-⟩ | ⟨pre,b,post,rfl,hb,hfit,he⟩
  · exact ⟨0,r.heap,bs,hnull,hsame⟩
  · refine ⟨_,_,pre++taken b (roundUp size)++post,he,?_⟩
    rw [if_neg (by simp only [headerSize]; omega)]
    exact h.take hb hfit

/-- Two placed blocks with the same offset are the same block. -/
theorem place_unique {o : ℕ} {b c : Block} (hb : (o,b) ∈ place Block.len 0 bs)
    (hc : (o,c) ∈ place Block.len 0 bs) : b = c := by
  rcases place_disjoint hb hc with h | h | h
  · exact h.2
  · simp only [Block.len,headerSize] at h
    omega
  · simp only [Block.len,headerSize] at h
    omega

theorem live_freed {pre post : List Block} {b : Block} (p : ℕ) :
    Live H (pre++⟨b.size,true⟩ :: post) p ↔
      p ≠ H.base + span Block.len pre + headerSize ∧ Live H (pre++b :: post) p := by
  have hmid : span Block.len [b] = Block.len ⟨b.size,true⟩ := by
    rw [span_cons,span_nil,Nat.add_zero]
    rfl
  have hlive := live_replace_free (H := H) pre post rfl hmid p
  rw [List.append_assoc,List.singleton_append] at hlive
  constructor
  · intro hp
    refine ⟨?_,hlive.mpr (Or.inl hp)⟩
    rintro rfl
    obtain ⟨o,c,hc,hf,ho⟩ := hp
    obtain rfl : o = span Block.len pre := by omega
    have he := place_unique hc Chain.mid_mem
    rw [he] at hf
    cases hf
  · rintro ⟨hne,hp⟩
    rcases hlive.mp hp with hp | ⟨o,c,hc,_,rfl⟩
    · exact hp
    · simp only [place,List.mem_cons,Prod.mk.injEq,List.not_mem_nil,or_false] at hc
      exact absurd (by rw [hc.1]) hne

theorem Tiled.zero_notMem (h : Tiled H r bs) : 0 ∉ r.live := by
  have hpos := H.pos
  rw [h.live]
  rintro ⟨o,b,-,-,ho⟩
  omega

theorem chain_setFree {m : Mem} {pre post : List Block} {b : Block} (h : Chain H m (pre++b :: post)) :
    Chain H (setFree m (H.base+span Block.len pre) 1) (pre++⟨b.size,true⟩ :: post) := by
  rw [List.append_cons]
  apply h.seam.replace
  · rfl
  · intro x hx
    simp only [span_cons,span_nil,Block.len,headerSize] at hx
    simp (disch := omega) only [setFree,write32_of_outside]
  · intro o c hd
    simp only [place,List.mem_cons,Prod.mk.injEq,List.not_mem_nil,or_false] at hd
    obtain ⟨rfl,rfl⟩ := hd
    exact header_setFree h.mid true

/-- Freeing a live block: its free word is set and the walk merges the list from its first block on. -/
theorem Tiled.kfree_cases (h : Tiled H r bs) {p : ℕ} (hp : p ∈ r.live) :
    ∃ pre b post c rest m', bs = pre++b :: post ∧ b.free = false ∧ p = H.base+span Block.len pre+headerSize ∧
      pre++⟨b.size,true⟩ :: post = c :: rest ∧ Kmem.kfree r.heap p = some ⟨m',r.heap.head⟩ ∧
      Tiled H ⟨⟨m',r.heap.head⟩,r.live.erase p⟩ (mergeFrom c rest) ∧
      OnlyHeaders H (setFree r.heap.mem (H.base+span Block.len pre) 1) m' (mergeFrom c rest) := by
  have hH := H.fits
  have hpos := H.pos
  obtain ⟨o,b,hmem,hb,rfl⟩ := (h.live p).mp hp
  obtain ⟨pre,post,rfl,rfl⟩ := mem_place_split hmem
  have hmid := h.chain.mid
  have hle := h.chain.mid_le
  rw [Nat.zero_add]
  have hblock : (H.base+span Block.len pre+headerSize+(2^32-headerSize)) % 2^32 = H.base+span Block.len pre := by
    simp only [headerSize,heapSize] at *
    omega
  have hfreed := chain_setFree h.chain
  obtain ⟨c,rest,hcons⟩ : ∃ c rest, pre++⟨b.size,true⟩ :: post = c :: rest := by
    cases pre with
    | nil => exact ⟨_,_,rfl⟩
    | cons c pre => exact ⟨c,_,rfl⟩
  rw [hcons] at hfreed
  have hlen := Chain.length_lt hfreed
  obtain ⟨m',hco,hchain,hw⟩ := coalesce_spec [] hfreed (Nat.lt_of_succ_lt hlen)
  rw [span_nil,Nat.add_zero] at hco
  refine ⟨pre,b,post,c,rest,m',rfl,hb,rfl,hcons,?_,?_,hw⟩
  · rw [Kmem.kfree,if_neg (by simp only [headerSize]; omega)]
    simp only [hblock]
    rw [if_neg,h.head,hco]
    · rfl
    · rw [hmid.magic,hmid.free,hb]
      decide
  · constructor
    · exact h.head
    · exact hchain
    · intro q
      have hmerge : Live H (mergeFrom c rest) q ↔ Live H (c :: rest) q := by
        unfold Live
        constructor
        · rintro ⟨o,d,hd,hf,hq⟩
          exact ⟨o,d,(mem_place_mergeFrom hf).mp hd,hf,hq⟩
        · rintro ⟨o,d,hd,hf,hq⟩
          exact ⟨o,d,(mem_place_mergeFrom hf).mpr hd,hf,hq⟩
      rw [hmerge,← hcons,live_freed,Finset.mem_erase,h.live]

theorem Tiled.kfree (h : Tiled H r bs) {p : ℕ} (hp : p = 0 ∨ p ∈ r.live) :
    ∃ h' bs', Kmem.kfree r.heap p = some h' ∧ Tiled H ⟨h',r.live.erase p⟩ bs' := by
  rcases hp with rfl | hp
  · refine ⟨r.heap,bs,?_,?_⟩
    · rw [Kmem.kfree,if_pos rfl]
    · rw [Finset.erase_eq_of_notMem h.zero_notMem]
      exact h
  · obtain ⟨pre,b,post,c,rest,m',-,-,-,-,he,hnew,-⟩ := h.kfree_cases hp
    exact ⟨_,_,he,hnew⟩

theorem Tiled.dataSize {o : ℕ} {b : Block} (h : Tiled H r bs) (hb : (o,b) ∈ place Block.len 0 bs) :
    HeapInvariant.dataSize r.heap.mem (H.base+o+headerSize) = b.size := by
  rw [HeapInvariant.dataSize,Nat.add_sub_cancel]
  exact (h.chain.headers o b hb).size

theorem Tiled.store (h : Tiled H r bs) {p x : ℕ} (v : UInt8) (hp : p ∈ r.live) (hx : p ≤ x)
    (hx' : x < p + HeapInvariant.dataSize r.heap.mem p) :
    Tiled H ⟨{ r.heap with mem := Function.update r.heap.mem x v },r.live⟩ bs := by
  obtain ⟨o,b,hb,-,rfl⟩ := (h.live p).mp hp
  rw [h.dataSize hb] at hx'
  constructor
  · exact h.head
  · constructor
    · exact h.chain.full
    · intro o' c hc
      apply (h.chain.headers o' c hc).congr
      intro y h1 h2
      apply Function.update_of_ne
      rintro rfl
      have hdis := place_disjoint hb hc
      simp only [Block.len,headerSize] at *
      omega
  · exact h.live

/-- What a step does to the block list: nothing, taking a free block, or a merging pass. -/
theorem Tiled.step (h : Tiled H r bs) {r' : HeapRun} (hstep : HeapStep r r') :
    ∃ bs', Tiled H r' bs' ∧ (bs' = bs ∨
      (∃ pre b post size, bs = pre++b :: post ∧ b.free = true ∧ bs' = pre++taken b size++post) ∨
      ∃ c rest, bs' = mergeFrom c rest) := by
  cases hstep with
  | kmalloc size p h' _ he =>
    by_cases hz : size = 0
    · rw [Kmem.kmalloc,if_pos hz] at he
      cases he
      exact ⟨bs,by rw [if_pos rfl]; exact h,Or.inl rfl⟩
    rcases h.kmalloc_cases hz with ⟨hnull,-⟩ | ⟨pre,b,post,rfl,hb,hfit,he'⟩
    · rw [he] at hnull
      cases hnull
      exact ⟨bs,by rw [if_pos rfl]; exact h,Or.inl rfl⟩
    · rw [he] at he'
      cases he'
      refine ⟨_,?_,Or.inr (Or.inl ⟨pre,b,post,roundUp size,rfl,hb,rfl⟩)⟩
      rw [if_neg (by simp only [headerSize]; omega)]
      exact h.take hb hfit
  | kfree p h' hp he =>
    rcases hp with rfl | hp
    · rw [Kmem.kfree,if_pos rfl] at he
      cases he
      rw [Finset.erase_eq_of_notMem h.zero_notMem]
      exact ⟨bs,h,Or.inl rfl⟩
    · obtain ⟨pre,b,post,c,rest,m',-,-,-,-,he',hnew,-⟩ := h.kfree_cases hp
      rw [he] at he'
      cases he'
      exact ⟨_,hnew,Or.inr (Or.inr ⟨c,rest,rfl⟩)⟩
  | store p x v hp hx hx' => exact ⟨bs,h.store v hp hx hx',Or.inl rfl⟩

end Step

/-! ## Whole runs -/

theorem Reachable.tiled {r : HeapRun} (h : Reachable H r) : ∃ bs, Tiled H r bs := by
  induction h with
  | boot m => exact ⟨_,Tiled.boot H m⟩
  | step _ hstep ih =>
    obtain ⟨bs,hbs⟩ := ih
    obtain ⟨bs',hbs',-⟩ := hbs.step hstep
    exact ⟨bs',hbs'⟩

theorem Tiled.wellFormed {r : HeapRun} {bs : List Block} (h : Tiled H r bs) :
    WellFormed H r ((place Block.len 0 bs).map (fun e => H.base+e.1)) := by
  have hfuel := Chain.length_lt h.chain
  have hfull := h.chain.full
  have haddr : addr H (span Block.len []) = r.heap.head := by rw [span_nil,addr_zero,h.head]
  constructor
  · have hwalk := blockList_spec [] h.chain hfuel
    rw [haddr] at hwalk
    exact hwalk
  · refine ⟨h.head,?_⟩
    cases bs with
    | nil => cases hfull
    | cons b bs => rfl
  · intro p hp
    obtain ⟨⟨o,b⟩,hb,rfl⟩ := List.mem_map.mp hp
    have hd := h.chain.headers o b hb
    have hle := (mem_place_bounds hb).2
    have hlen : b.len = headerSize + b.size := rfl
    rw [hd.next,hd.size,addr]
    rw [hfull] at hle
    dsimp only
    constructor
    · omega
    · by_cases hend : o + b.len = heapSize
      · rw [if_pos hend,if_pos (by omega)]
      · rw [if_neg hend,if_neg (by omega)]
        omega
  · intro p hp
    obtain ⟨⟨o,b⟩,hb,rfl⟩ := List.mem_map.mp hp
    have hd := h.chain.headers o b hb
    rw [hd.size]
    exact hd.aligned
  · intro p hp
    obtain ⟨⟨o,b⟩,hb,rfl⟩ := List.mem_map.mp hp
    exact (h.chain.headers o b hb).magic
  · intro q
    rw [h.live]
    constructor
    · rintro ⟨o,b,hb,hf,rfl⟩
      refine ⟨H.base+o,List.mem_map.mpr ⟨(o,b),hb,rfl⟩,?_,rfl⟩
      rw [(h.chain.headers o b hb).free,hf]
      rfl
    · rintro ⟨p,hp,hf,rfl⟩
      obtain ⟨⟨o,b⟩,hb,rfl⟩ := List.mem_map.mp hp
      rw [(h.chain.headers o b hb).free] at hf
      refine ⟨o,b,hb,?_,rfl⟩
      by_contra hfree
      rw [Bool.not_eq_false] at hfree
      rw [hfree] at hf
      cases hf
  · intro p hp
    obtain ⟨o,b,hb,-,rfl⟩ := (h.live p).mp hp
    have hle := (mem_place_bounds hb).2
    rw [h.dataSize hb]
    rw [hfull] at hle
    simp only [Block.len] at hle
    constructor <;> omega
  · intro p hp q hq hne
    obtain ⟨o,b,hb,-,rfl⟩ := (h.live p).mp hp
    obtain ⟨o',b',hb',-,rfl⟩ := (h.live q).mp hq
    have hdis := place_disjoint hb hb'
    rw [h.dataSize hb,h.dataSize hb']
    simp only [Block.len] at hdis
    omega
  · refine ⟨usedBytes bs,freeBytes bs,?_,?_⟩
    · have hinfo := infoLoop_spec [] 0 0 h.chain hfuel (by omega)
      rw [haddr] at hinfo
      rw [kmemInfo,hinfo,Nat.zero_add,Nat.zero_add]
      rfl
    · rw [List.length_map,length_place,usedBytes_add_freeBytes,hfull]

/-- In every state of a run the heap is well formed, and every call the client may make next returns. -/
theorem heap_wellFormed {r : HeapRun} (h : Reachable H r) :
    (∃ ps, WellFormed H r ps) ∧ (∀ size < 2^32, (Kmem.kmalloc r.heap size).isSome) ∧
      ∀ p, p = 0 ∨ p ∈ r.live → (Kmem.kfree r.heap p).isSome := by
  obtain ⟨bs,hbs⟩ := h.tiled
  refine ⟨⟨_,hbs.wellFormed⟩,?_,?_⟩
  · intro size _
    obtain ⟨p,h',bs',he,_⟩ := hbs.kmalloc size
    rw [he]
    rfl
  · intro p hp
    obtain ⟨h',bs',he,_⟩ := hbs.kfree hp
    rw [he]
    rfl

/-- The first allocation of a run gets the first block. -/
theorem kmalloc_kmemInit (H : HeapLayout) (m : Mem) {size : ℕ} (hpos : size ≠ 0)
    (hfit : roundUp size ≤ heapSize-headerSize) :
    ∃ h, Kmem.kmalloc (kmemInit H m) size = some (H.base+headerSize,h) := by
  have hd := (Tiled.boot H m).chain.headers 0 _ List.mem_cons_self
  have hfree : blockFree (kmemInit H m).mem H.base = 1 := hd.free
  have hsize : blockSize (kmemInit H m).mem H.base = heapSize-headerSize := hd.size
  refine ⟨⟨(takeBlock (kmemInit H m).mem H.base (roundUp size)).2,H.base⟩,?_⟩
  rw [Kmem.kmalloc,if_neg hpos]
  have hhead : (kmemInit H m).head = H.base := rfl
  rw [hhead,walkFuel,kmallocLoop,if_neg (Nat.pos_iff_ne_zero.mp H.pos),if_pos]
  · rfl
  · rw [hfree,hsize]
    exact ⟨Nat.one_ne_zero,hfit⟩

/-- The heap at 1 MiB. -/
def sampleLayout : HeapLayout := ⟨0x100000,by decide,by decide⟩

/-- Two blocks allocated and the first one freed. -/
theorem reachable_hole : ∃ r, Reachable sampleLayout r ∧ r.live = {0x100038} := by
  have hrun : ((Kmem.kmalloc (kmemInit sampleLayout fun _ => 0) 24).bind fun x => (Kmem.kmalloc x.2 8).bind fun y =>
      (Kmem.kfree y.2 0x100010).map fun _ => (x.1,y.1)) = some (0x100010,0x100038) := by
    decide +kernel
  obtain ⟨⟨p,h₁⟩,hp,hrun⟩ := Option.bind_eq_some_iff.mp hrun
  obtain ⟨⟨q,h₂⟩,hq,hrun⟩ := Option.bind_eq_some_iff.mp hrun
  obtain ⟨h₃,hfree,he⟩ := Option.map_eq_some_iff.mp hrun
  simp only [Prod.mk.injEq] at he
  obtain ⟨rfl,rfl⟩ := he
  have hr := Reachable.step (.boot fun _ => 0) (.kmalloc ⟨_,∅⟩ 24 _ _ (by decide) hp)
  rw [if_neg (by decide)] at hr
  have hr' := hr.step (.kmalloc _ 8 _ _ (by decide) hq)
  rw [if_neg (by decide)] at hr'
  exact ⟨_,hr'.step (.kfree _ 0x100010 _ (Or.inr (by dsimp only; decide)) hfree),by dsimp only; decide⟩

theorem heap_wellFormed_sample :
    ∃ r, Reachable sampleLayout r ∧ r.live = {0x100038} ∧ ∃ ps, WellFormed sampleLayout r ps := by
  obtain ⟨r,hr,hlive⟩ := reachable_hole
  exact ⟨r,hr,hlive,(heap_wellFormed hr).1⟩

end VesperOS.HeapInvariant
