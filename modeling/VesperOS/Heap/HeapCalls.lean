import VesperOS.Heap.HeapInvariant
import Mathlib.Data.List.Chain

/-! # What the heap calls promise

Three readings of `kmalloc` and `kfree` over the states of a run: what a returned
pointer is good for, how the list of blocks is kept free of adjacent free blocks,
and which bytes a call may write.
-/
namespace VesperOS.HeapCalls
open ByteMemory Kmem Tiling BlockChain HeapInvariant

/-- The block list as the code walks it. -/
def blocks (h : Heap) : List ℕ := (blockList h.mem walkFuel h.head).getD []

variable {H : HeapLayout} {r : HeapRun} {bs : List Block}

theorem blocks_eq (h : Tiled H r bs) : blocks r.heap = (place Block.len 0 bs).map (fun e => H.base+e.1) := by
  rw [blocks,h.wellFormed.walk,Option.getD_some]

theorem mem_blocks (h : Tiled H r bs) {p : ℕ} :
    p ∈ blocks r.heap ↔ ∃ o b, (o,b) ∈ place Block.len 0 bs ∧ p = H.base + o := by
  rw [blocks_eq h,List.mem_map]
  constructor
  · rintro ⟨⟨o,b⟩,hb,rfl⟩
    exact ⟨o,b,hb,rfl⟩
  · rintro ⟨o,b,hb,rfl⟩
    exact ⟨(o,b),hb,rfl⟩

theorem blockFree_ne_zero {m : Mem} {o : ℕ} {b : Block} (h : Header H m o b) :
    blockFree m (H.base+o) ≠ 0 ↔ b.free = true := by
  rw [h.free]
  cases b.free <;> decide

theorem mem_place_of_mem {b : Block} (hb : b ∈ bs) : ∃ o, (o,b) ∈ place Block.len 0 bs := by
  obtain ⟨pre,post,rfl⟩ := List.append_of_mem hb
  exact ⟨_,Chain.mid_mem⟩

theorem mem_of_mem_place {o : ℕ} {b : Block} (hb : (o,b) ∈ place Block.len 0 bs) : b ∈ bs := by
  obtain ⟨pre,post,rfl,-⟩ := mem_place_split hb
  exact List.mem_append_right _ List.mem_cons_self

/-! ## Requests -/

/-- What a request for `n` bytes promises: the bytes of a returned pointer are in the heap and hit no header of the
list and no other live data, and the answer is NULL when no free block has `n` bytes. -/
def Serves (H : HeapLayout) (r : HeapRun) (n : ℕ) : Prop :=
  ∃ p h', Kmem.kmalloc r.heap n = some (p,h') ∧
    (p ≠ 0 → H.base ≤ p ∧ p + n ≤ H.base + heapSize ∧
      (∀ q ∈ blocks h', p + n ≤ q ∨ q + headerSize ≤ p) ∧
      ∀ q ∈ r.live, p + n ≤ q ∨ q + dataSize h'.mem q ≤ p) ∧
    ((∀ q ∈ blocks r.heap, blockFree r.heap.mem q ≠ 0 → blockSize r.heap.mem q < n) → p = 0)

theorem roundUp_of_le {n : ℕ} (h : n ≤ 2^32-4) : roundUp n = (n+3)/4*4 := by
  rw [roundUp,Nat.mod_eq_of_lt (by omega)]

theorem le_roundUp {n : ℕ} (h : n ≤ 2^32-4) : n ≤ roundUp n := by
  rw [roundUp_of_le h]
  omega

/-- The three largest sizes wrap to a request of no bytes. -/
theorem roundUp_wrap {n : ℕ} (h : 2^32-4 < n) (hn : n < 2^32) : roundUp n = 0 := by
  rw [roundUp]
  omega

/-- The block `kmalloc` hands out: it stands in the new list and has the bytes asked for. -/
theorem mem_taken (pre post : List Block) {b : Block} {size : ℕ} (hfit : size ≤ b.size) :
    ∃ k, size ≤ k ∧ k ≤ b.size ∧
      (span Block.len pre,(⟨k,false⟩ : Block)) ∈ place Block.len 0 (pre++taken b size++post) := by
  have hmem : ∀ e : ℕ × Block, e ∈ place Block.len (span Block.len pre) (taken b size) →
      e ∈ place Block.len 0 (pre++taken b size++post) := by
    intro e he
    rw [mem_place_replace,Nat.zero_add]
    exact Or.inr (Or.inl he)
  by_cases hsplit : size+headerSize+4 ≤ b.size
  · refine ⟨size,le_refl _,hfit,hmem _ ?_⟩
    rw [taken,if_pos hsplit]
    exact List.mem_cons_self
  · refine ⟨b.size,hfit,le_refl _,hmem _ ?_⟩
    rw [taken,if_neg hsplit]
    exact List.mem_cons_self

theorem serves_of_le (h : Tiled H r bs) {n : ℕ} (hpos : 1 ≤ n) (hn : n ≤ 2^32-4) : Serves H r n := by
  have hround := le_roundUp hn
  rcases h.kmalloc_cases (by omega : n ≠ 0) with ⟨hnull,-⟩ | ⟨pre,b,post,rfl,hb,hfit,he⟩
  · exact ⟨_,_,hnull,fun hp => absurd rfl hp,fun _ => rfl⟩
  refine ⟨_,_,he,?_,?_⟩
  · intro _
    have hnew := h.take hb hfit
    obtain ⟨k,hk,-,hmem⟩ := mem_taken pre post hfit
    have hend := (mem_place_bounds hmem).2
    rw [hnew.chain.full] at hend
    simp only [Block.len] at hend
    refine ⟨by omega,by omega,?_,?_⟩
    · intro q hq
      obtain ⟨o,c,hc,rfl⟩ := (mem_blocks hnew).mp hq
      have hdis := place_disjoint hmem hc
      simp only [Block.len] at hdis
      omega
    · intro q hq
      obtain ⟨o,c,hc,hf,rfl⟩ := (hnew.live q).mp (Finset.mem_insert_of_mem hq)
      rw [hnew.dataSize hc]
      obtain ⟨o',c',hc',hf',ho'⟩ := (h.live _).mp hq
      obtain rfl : o = o' := by omega
      have hne : o ≠ span Block.len pre := by
        rintro rfl
        rw [place_unique hc' Chain.mid_mem,hb] at hf'
        cases hf'
      have hdis := place_disjoint hmem hc
      simp only [Block.len] at hdis
      omega
  · intro hsmall
    have hmid := h.chain.mid
    have hlt := hsmall _ ((mem_blocks h).mpr ⟨_,b,Chain.mid_mem,rfl⟩) ((blockFree_ne_zero hmid).mpr hb)
    rw [hmid.size] at hlt
    omega

theorem serves_of_full (h : Tiled H r bs) {n : ℕ} (hpos : 1 ≤ n) (hfull : ∀ b ∈ bs, b.free = false) :
    Serves H r n := by
  rcases h.kmalloc_cases (by omega : n ≠ 0) with ⟨hnull,-⟩ | ⟨pre,b,post,rfl,hb,-,-⟩
  · exact ⟨_,_,hnull,fun hp => absurd rfl hp,fun _ => rfl⟩
  · rw [hfull b (List.mem_append_right _ List.mem_cons_self)] at hb
    cases hb

theorem not_serves_of_wrap (h : Tiled H r bs) {n : ℕ} (hn : n < 2^32) (hwrap : 2^32-4 < n) {b : Block} (hb : b ∈ bs)
    (hfree : b.free = true) : ¬ Serves H r n := by
  rintro ⟨p,h',he,hp,-⟩
  have hH := H.fits
  have hpos := H.pos
  rcases h.kmalloc_cases (by omega : n ≠ 0) with ⟨-,hsmall⟩ | ⟨pre,c,post,-,-,-,he'⟩
  · have hlt := hsmall b hb hfree
    rw [roundUp_wrap hwrap hn] at hlt
    omega
  · rw [he] at he'
    cases he'
    have hin := (hp (by omega)).2.1
    simp only [headerSize,heapSize] at *
    omega

/-- `kmalloc` keeps its promise unless the rounding wraps and some block is free. -/
theorem serves_iff (h : Reachable H r) {n : ℕ} (hpos : 1 ≤ n) (hn : n < 2^32) :
    Serves H r n ↔ n ≤ 0xFFFFFFFC ∨ ∀ q ∈ blocks r.heap, blockFree r.heap.mem q = 0 := by
  obtain ⟨bs,hbs⟩ := h.tiled
  constructor
  · intro hserves
    by_contra hbad
    push Not at hbad
    obtain ⟨hwrap,q,hq,hfree⟩ := hbad
    obtain ⟨o,b,hb,rfl⟩ := (mem_blocks hbs).mp hq
    have hf := (blockFree_ne_zero (hbs.chain.headers o b hb)).mp hfree
    exact not_serves_of_wrap hbs hn hwrap (mem_of_mem_place hb) hf hserves
  · rintro (hle | hfull)
    · exact serves_of_le hbs hpos hle
    · apply serves_of_full hbs hpos
      intro b hb
      obtain ⟨o,ho⟩ := mem_place_of_mem hb
      have hf := hfull _ ((mem_blocks hbs).mpr ⟨o,b,ho,rfl⟩)
      by_contra hne
      exact (blockFree_ne_zero (hbs.chain.headers o b ho)).mpr (by simpa using hne) hf

/-- On the heap `kmem_init` leaves, a request for a small number of bytes is served. -/
theorem serves_iff_boot : Serves sampleLayout ⟨kmemInit sampleLayout (fun _ => 0),∅⟩ 24 :=
  (serves_iff (Reachable.boot (fun _ => 0)) (by decide) (by decide)).mpr (Or.inl (by decide))

/-- A request for all but one byte of the address space gets a pointer. -/
theorem kmalloc_wraps : Reachable sampleLayout ⟨kmemInit sampleLayout (fun _ => 0),∅⟩ ∧
    ¬ Serves sampleLayout ⟨kmemInit sampleLayout (fun _ => 0),∅⟩ 0xFFFFFFFF := by
  refine ⟨Reachable.boot _,?_⟩
  exact not_serves_of_wrap (Tiled.boot _ _) (by decide) (by decide) List.mem_cons_self rfl

/-! ## No two free neighbours -/

/-- Of two consecutive blocks at least one is allocated. -/
def Coalesced (bs : List Block) : Prop := bs.IsChain (fun b c => b.free = false ∨ c.free = false)

/-- One pass of the walk is enough, whatever the list was. -/
theorem coalesced_mergeFrom (b : Block) (rest : List Block) : Coalesced (mergeFrom b rest) := by
  induction rest generalizing b with
  | nil => exact List.isChain_singleton b
  | cons c rest ih =>
    rw [mergeFrom]
    split
    · exact ih _
    · case isFalse hf =>
      have hrest := ih c
      obtain ⟨d,ds,hd,hfree⟩ := mergeFrom_head c rest
      rw [hd] at hrest ⊢
      refine List.isChain_cons_cons.mpr ⟨?_,hrest⟩
      rw [hfree]
      cases hb : b.free with
      | false => exact Or.inl rfl
      | true =>
        right
        by_contra hc
        exact hf ⟨hb,by simpa using hc⟩

theorem coalesced_taken {pre post : List Block} {b : Block} {size : ℕ} (h : Coalesced (pre++b :: post))
    (hb : b.free = true) : Coalesced (pre++taken b size++post) := by
  obtain ⟨hpre,hpost⟩ := List.isChain_split.mp h
  have hfirst : ∀ c : Block, c.free = false → Coalesced (pre++[c]) := by
    intro c hc
    refine List.isChain_append.mpr ⟨(List.isChain_append.mp hpre).1,List.isChain_singleton c,?_⟩
    intro x _ y hy
    cases hy
    exact Or.inr hc
  rw [List.append_assoc]
  unfold taken
  split
  · refine List.isChain_split.mpr ⟨hfirst _ rfl,List.isChain_cons_cons.mpr ⟨Or.inl rfl,?_⟩⟩
    -- the rest of a split block is free, as the block was, so its neighbour is still allocated
    change Coalesced (_ :: post)
    cases post with
    | nil => exact List.isChain_singleton _
    | cons c post =>
      obtain ⟨hbc,hrest⟩ := List.isChain_cons_cons.mp hpost
      rw [hb] at hbc
      exact List.isChain_cons_cons.mpr ⟨Or.inr (hbc.resolve_left (by decide)),hrest⟩
  · refine List.isChain_split.mpr ⟨hfirst _ rfl,?_⟩
    change Coalesced (_ :: post)
    cases post with
    | nil => exact List.isChain_singleton _
    | cons c post => exact List.isChain_cons_cons.mpr ⟨Or.inl rfl,(List.isChain_cons_cons.mp hpost).2⟩

theorem reachable_coalesced (h : Reachable H r) : ∃ bs, Tiled H r bs ∧ Coalesced bs := by
  induction h with
  | boot m => exact ⟨_,Tiled.boot H m,List.isChain_singleton _⟩
  | step _ hstep ih =>
    obtain ⟨bs,hbs,hco⟩ := ih
    obtain ⟨bs',hbs',rfl | ⟨pre,b,post,size,rfl,hb,rfl⟩ | ⟨c,rest,rfl⟩⟩ := hbs.step hstep
    · exact ⟨_,hbs',hco⟩
    · exact ⟨_,hbs',coalesced_taken hco hb⟩
    · exact ⟨_,hbs',coalesced_mergeFrom c rest⟩

/-- A stretch of the heap from its start or the end of a live block up to a live header or the end of the heap, with
no live block in it. -/
structure Gap (H : HeapLayout) (r : HeapRun) (a b : ℕ) : Prop where
  start : a = H.base ∨ ∃ p ∈ r.live, a = p + dataSize r.heap.mem p
  stop : b = H.base + heapSize ∨ ∃ p ∈ r.live, b = p - headerSize
  clear : ∀ p ∈ r.live, p + dataSize r.heap.mem p ≤ a ∨ b ≤ p - headerSize

/-- An offset where a block ends is where the next one starts. -/
theorem next_block {o : ℕ} {b : Block} (hfull : span Block.len bs = heapSize) (hb : (o,b) ∈ place Block.len 0 bs)
    (hlt : o + b.len < heapSize) : ∃ pre c post, bs = pre++b :: c :: post ∧ o = span Block.len pre := by
  obtain ⟨pre,post,rfl,ho⟩ := mem_place_split hb
  rw [Nat.zero_add] at ho
  cases post with
  | nil =>
    rw [span_append,span_cons,span_nil,← ho] at hfull
    omega
  | cons c post => exact ⟨pre,c,post,rfl,ho⟩

/-- A gap that can hold a header is one free block. -/
theorem gap_free (h : Tiled H r bs) (hco : Coalesced bs) {x y : ℕ} (hg : Gap H r x y) (hlen : headerSize ≤ y - x) :
    ∃ b ∈ bs, b.free = true ∧ y - x ≤ b.len := by
  have hfull := h.chain.full
  have hy : y ≤ H.base + heapSize := by
    rcases hg.stop with rfl | ⟨p,hp,rfl⟩
    · exact le_refl _
    · have := (h.wellFormed.inside p hp).2
      omega
  -- a block that starts inside the gap is free
  have hinside : ∀ o b, (o,b) ∈ place Block.len 0 bs → x ≤ H.base + o → H.base + o < y → b.free = true := by
    intro o b hb hxo hoy
    by_contra hf
    have hlive := (h.live _).mpr ⟨o,b,hb,by simpa using hf,rfl⟩
    rcases hg.clear _ hlive with hc | hc
    · rw [h.dataSize hb] at hc
      simp only [headerSize] at *
      omega
    · simp only [headerSize] at *
      omega
  obtain ⟨o,b,hb,ho⟩ : ∃ o b, (o,b) ∈ place Block.len 0 bs ∧ x = H.base + o := by
    rcases hg.start with rfl | ⟨p,hp,rfl⟩
    · cases bs with
      | nil => cases hfull
      | cons b bs => exact ⟨0,b,List.mem_cons_self,rfl⟩
    · obtain ⟨o,b,hb,-,rfl⟩ := (h.live p).mp hp
      rw [h.dataSize hb] at hlen ⊢
      have hlt : o + b.len < heapSize := by
        simp only [Block.len,headerSize] at *
        omega
      obtain ⟨pre,c,post,rfl,rfl⟩ := next_block hfull hb hlt
      refine ⟨span Block.len (pre++[b]),c,?_,?_⟩
      · rw [List.append_cons]
        exact Chain.mid_mem
      · rw [span_append,span_cons,span_nil,Block.len]
        omega
  have hbf := hinside o b hb (by omega) (by simp only [headerSize] at hlen; omega)
  refine ⟨b,mem_of_mem_place hb,hbf,?_⟩
  by_contra hshort
  obtain ⟨pre,c,post,rfl,rfl⟩ := next_block hfull hb (by omega)
  have hcf : c.free = true := by
    apply hinside (span Block.len (pre++[b])) c
    · rw [List.append_cons]
      exact Chain.mid_mem
    · rw [span_append,span_cons,span_nil]
      omega
    · rw [span_append,span_cons,span_nil]
      omega
  have hadj := (List.isChain_cons_cons.mp (List.isChain_append.mp hco).2.1).1
  rw [hbf,hcf] at hadj
  simp at hadj

/-- With nothing live, the list is one free block. -/
theorem eq_single_of_empty (h : Tiled H r bs) (hco : Coalesced bs) (hempty : r.live = ∅) :
    bs = [⟨heapSize-headerSize,true⟩] := by
  have hfull := h.chain.full
  have hfree : ∀ b ∈ bs, b.free = true := by
    intro b hb
    obtain ⟨o,ho⟩ := mem_place_of_mem hb
    by_contra hf
    have hlive := (h.live _).mpr ⟨o,b,ho,by simpa using hf,rfl⟩
    rw [hempty] at hlive
    cases hlive
  cases bs with
  | nil => cases hfull
  | cons b rest =>
    have hb := hfree b List.mem_cons_self
    cases rest with
    | nil =>
      rw [span_cons,span_nil,Block.len] at hfull
      obtain ⟨size,free⟩ := b
      dsimp only at hb hfull
      rw [hb,← hfull]
      congr 2
      omega
    | cons c rest =>
      have hadj := (List.isChain_cons_cons.mp hco).1
      rw [hb,hfree c (by simp)] at hadj
      simp at hadj

/-- The list is always fully merged: no two neighbours are free, with nothing live it is the block of `kmem_init`,
and a request is refused only when no gap between live blocks holds it with its header. -/
theorem heap_coalesced (h : Reachable H r) :
    (∀ p ∈ blocks r.heap, blockNext r.heap.mem p ≠ 0 →
      blockFree r.heap.mem p = 0 ∨ blockFree r.heap.mem (blockNext r.heap.mem p) = 0) ∧
    (r.live = ∅ → r.heap.head = H.base ∧ blocks r.heap = [H.base] ∧
      blockSize r.heap.mem H.base = heapSize - headerSize ∧ blockFree r.heap.mem H.base = 1 ∧
      blockMagic r.heap.mem H.base = heapMagic ∧ blockNext r.heap.mem H.base = 0) ∧
    ∀ n h', 1 ≤ n → n ≤ heapSize → Kmem.kmalloc r.heap n = some (0,h') →
      ∀ x y, Gap H r x y → y - x < headerSize + roundUp n := by
  obtain ⟨bs,hbs,hco⟩ := reachable_coalesced h
  refine ⟨?_,?_,?_⟩
  · intro p hp hnext
    obtain ⟨o,b,hb,rfl⟩ := (mem_blocks hbs).mp hp
    have hd := hbs.chain.headers o b hb
    have hend := (mem_place_bounds hb).2
    rw [hbs.chain.full] at hend
    rw [hd.next,addr] at hnext
    obtain ⟨pre,c,post,rfl,rfl⟩ := next_block hbs.chain.full hb
      (Nat.lt_of_le_of_ne (by omega) fun he => hnext (if_pos he))
    have hadj := (List.isChain_cons_cons.mp (List.isChain_append.mp hco).2.1).1
    rw [hbs.chain.next_mid]
    have hchain := hbs.chain
    rw [List.append_cons] at hchain
    rw [hchain.addr_mid,hchain.mid.free,hd.free]
    rcases hadj with hf | hf
    · rw [hf]
      exact Or.inl rfl
    · rw [hf]
      exact Or.inr rfl
  · intro hempty
    obtain rfl := eq_single_of_empty hbs hco hempty
    have hd := hbs.chain.headers 0 _ List.mem_cons_self
    refine ⟨hbs.head,?_,hd.size,hd.free,hd.magic,hd.next⟩
    rw [blocks_eq hbs]
    rfl
  · intro n h' hpos hn hnull x y hg
    by_contra hlarge
    obtain ⟨b,hb,hfree,hlen⟩ := gap_free hbs hco hg (by omega)
    rcases hbs.kmalloc_cases (by omega : n ≠ 0) with ⟨-,hsmall⟩ | ⟨pre,c,post,-,-,-,he⟩
    · have hlt := hsmall b hb hfree
      rw [Block.len] at hlen
      omega
    · rw [hnull] at he
      simp only [Option.some.injEq,Prod.mk.injEq,headerSize] at he
      omega

/-- Between a freed block and the rest of the heap stands the live one. -/
theorem heap_coalesced_sample : ∃ r, Reachable sampleLayout r ∧ r.live = {0x100038} ∧
    ∀ p ∈ blocks r.heap, blockNext r.heap.mem p ≠ 0 →
      blockFree r.heap.mem p = 0 ∨ blockFree r.heap.mem (blockNext r.heap.mem p) = 0 := by
  obtain ⟨r,hr,hlive⟩ := reachable_hole
  exact ⟨r,hr,hlive,(heap_coalesced hr).1⟩

/-! ## The clients' bytes -/

/-- The data area of the allocation at `q` keeps its place and its bytes. -/
def DataKept (m m' : Mem) (q : ℕ) : Prop :=
  dataSize m' q = dataSize m q ∧ ∀ x, q ≤ x → x < q + dataSize m q → m' x = m x

theorem dataKept_refl (m : Mem) (q : ℕ) : DataKept m m q := ⟨rfl,fun _ _ _ => rfl⟩

/-- A call that writes only headers of the new list keeps every data area the old and the new list share. -/
theorem dataKept_of_shared {r' : HeapRun} {bs' : List Block} (h : Tiled H r bs) (h' : Tiled H r' bs') {o : ℕ} {b : Block}
    (hb : (o,b) ∈ place Block.len 0 bs) (hb' : (o,b) ∈ place Block.len 0 bs')
    (hw : ∀ x, H.base+o+headerSize ≤ x → x < H.base+o+headerSize+b.size → r'.heap.mem x = r.heap.mem x) :
    DataKept r.heap.mem r'.heap.mem (H.base+o+headerSize) := by
  unfold DataKept
  rw [h.dataSize hb,h'.dataSize hb']
  exact ⟨rfl,hw⟩

theorem dataKept_take {pre post : List Block} {b : Block} {size : ℕ} (h : Tiled H r (pre++b :: post))
    (hb : b.free = true) (hfit : roundUp size ≤ b.size) {q : ℕ} (hq : q ∈ r.live) :
    DataKept r.heap.mem (takeBlock r.heap.mem (H.base+span Block.len pre) (roundUp size)).2 q := by
  obtain ⟨o,c,hc,hf,rfl⟩ := (h.live q).mp hq
  have hnew := h.take hb hfit
  have hc' : (o,c) ∈ place Block.len 0 (pre++taken b (roundUp size)++post) := by
    rw [place_append,Nat.zero_add,place,List.mem_append,List.mem_cons] at hc
    rw [mem_place_replace,Nat.zero_add,span_taken]
    rcases hc with hc | hc | hc
    · exact Or.inl hc
    · cases hc
      rw [hb] at hf
      cases hf
    · exact Or.inr (Or.inr hc)
  exact dataKept_of_shared h hnew hc hc' fun x h1 h2 => (takeBlock_onlyHeaders h.chain hfit).data hc' h1 h2

theorem dataKept_kfree (h : Tiled H r bs) {p : ℕ} (hp : p ∈ r.live) {h' : Heap}
    (he : Kmem.kfree r.heap p = some h') {q : ℕ} (hq : q ∈ r.live) (hne : q ≠ p) :
    DataKept r.heap.mem h'.mem q := by
  obtain ⟨pre,b,post,c,rest,m',rfl,hb,rfl,hcons,he',hnew,hw⟩ := h.kfree_cases hp
  rw [he] at he'
  cases he'
  obtain ⟨o,d,hd,hf,rfl⟩ := (h.live q).mp hq
  have hdis := place_disjoint hd Chain.mid_mem
  -- another live block is not the freed one, so it stands in the list after the merging pass too
  have hd' : (o,d) ∈ place Block.len 0 (pre++⟨b.size,true⟩ :: post) := by
    rw [place_append,Nat.zero_add,place,List.mem_append,List.mem_cons] at hd ⊢
    rcases hd with hd | hd | hd
    · exact Or.inl hd
    · cases hd
      exact absurd rfl hne
    · exact Or.inr (Or.inr hd)
  rw [hcons] at hd'
  have hmerged := (mem_place_mergeFrom hf).mpr hd'
  refine dataKept_of_shared h hnew hd hmerged ?_
  intro x h1 h2
  have hframe := hw.data hmerged h1 h2
  refine hframe.trans (write32_of_outside _ ?_)
  simp only [Block.len,headerSize] at *
  omega

/-- No call writes to the data of an allocation that is live before and after it. -/
theorem client_data_kept (h : Reachable H r) :
    (∀ size p h', size < 2^32 → Kmem.kmalloc r.heap size = some (p,h') →
      ∀ q ∈ r.live, DataKept r.heap.mem h'.mem q) ∧
    ∀ p h', p = 0 ∨ p ∈ r.live → Kmem.kfree r.heap p = some h' →
      ∀ q ∈ r.live.erase p, DataKept r.heap.mem h'.mem q := by
  obtain ⟨bs,hbs⟩ := h.tiled
  constructor
  · intro size p h' _ he q hq
    by_cases hz : size = 0
    · rw [Kmem.kmalloc,if_pos hz] at he
      cases he
      exact dataKept_refl _ q
    rcases hbs.kmalloc_cases hz with ⟨hnull,-⟩ | ⟨pre,b,post,rfl,hb,hfit,he'⟩
    · rw [he] at hnull
      cases hnull
      exact dataKept_refl _ q
    · rw [he] at he'
      cases he'
      exact dataKept_take hbs hb hfit hq
  · intro p h' hp he q hq
    obtain ⟨hne,hq⟩ := Finset.mem_erase.mp hq
    rcases hp with rfl | hp
    · rw [Kmem.kfree,if_pos rfl] at he
      cases he
      exact dataKept_refl _ q
    · exact dataKept_kfree hbs hp he hq hne

/-- With one live allocation of 24 bytes, a second request leaves its bytes alone. -/
theorem client_data_kept_sample : ∃ r p h', Reachable sampleLayout r ∧ r.live = {0x100010} ∧
    Kmem.kmalloc r.heap 8 = some (p,h') ∧ DataKept r.heap.mem h'.mem 0x100010 := by
  obtain ⟨h,he⟩ := kmalloc_kmemInit sampleLayout (fun _ => 0) (by decide : 24 ≠ 0) (by decide)
  have hr := Reachable.step (Reachable.boot (fun _ => 0)) (HeapStep.kmalloc ⟨_,∅⟩ 24 _ _ (by decide) he)
  obtain ⟨bs,hbs⟩ := hr.tiled
  obtain ⟨p,h',-,hcall,-⟩ := hbs.kmalloc 8
  exact ⟨_,p,h',hr,by dsimp only; decide,hcall,
    (client_data_kept hr).1 8 p h' (by decide) hcall _ (by dsimp only; decide)⟩

end VesperOS.HeapCalls
