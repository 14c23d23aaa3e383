import VesperOS.Heap.HeapCalls

/-! # Freeing a pointer twice

`kfree` ignores a block whose magic word is wrong or whose free word is set. A
stale pointer points past a header that may have been merged away and written
over since, so the test reads whatever stands there now. Here `kfree` may be
called with any pointer `kmalloc` ever returned.
-/
namespace VesperOS.StaleFree
open ByteMemory Kmem Tiling BlockChain HeapInvariant HeapCalls

/-- A state of the heap with all pointers `kmalloc` returned so far. -/
structure CallState where
  run : HeapRun
  returned : Finset ℕ

inductive HeapCall
  | kmalloc (size : ℕ)
  | kfree (p : ℕ)

def boot (H : HeapLayout) (m : Mem) : CallState := ⟨⟨kmemInit H m,∅⟩,∅⟩

def call (s : CallState) : HeapCall → Option CallState
  | .kmalloc size => (Kmem.kmalloc s.run.heap size).map (fun r =>
      if r.1 = 0 then ⟨⟨r.2,s.run.live⟩,s.returned⟩ else ⟨⟨r.2,insert r.1 s.run.live⟩,insert r.1 s.returned⟩)
  | .kfree p => (Kmem.kfree s.run.heap p).map (fun h => ⟨⟨h,s.run.live.erase p⟩,s.returned⟩)

def Allowed (s : CallState) : HeapCall → Prop
  | .kmalloc size => size < 2^32
  | .kfree p => p = 0 ∨ p ∈ s.returned

instance (s : CallState) : (c : HeapCall) → Decidable (Allowed s c)
  | .kmalloc size => inferInstanceAs (Decidable (size < 2^32))
  | .kfree p => inferInstanceAs (Decidable (p = 0 ∨ p ∈ s.returned))

/-- The states of the histories all of whose states satisfy `ok`. -/
inductive Through (H : HeapLayout) (ok : CallState → Prop) : CallState → Prop
  | boot (m : Mem) : ok (boot H m) → Through H ok (StaleFree.boot H m)
  | call {s s' : CallState} (c : HeapCall) : Through H ok s → Allowed s c → StaleFree.call s c = some s' → ok s' →
      Through H ok s'

/-- Freeing a pointer that is not live changes nothing. -/
def StaleIgnored (s : CallState) : Prop :=
  ∀ p ∈ s.returned, p ∉ s.run.live → Kmem.kfree s.run.heap p = some s.run.heap

/-- The header of the last block does not stand 8 bytes below the place of a header `kmalloc` returned before whose
magic word is still there: its `next`, which is NULL, would be read as that header's free word. -/
def LastClean (s : CallState) : Prop :=
  ∀ q ∈ blocks s.run.heap, blockNext s.run.heap.mem q = 0 → q + 8 + headerSize ∈ s.returned →
    blockMagic s.run.heap.mem (q+8) ≠ heapMagic

instance : DecidablePred LastClean := fun s => inferInstanceAs (Decidable (∀ q ∈ blocks s.run.heap,
  blockNext s.run.heap.mem q = 0 → q + 8 + headerSize ∈ s.returned → blockMagic s.run.heap.mem (q+8) ≠ heapMagic))

/-- Make the calls, as long as they are allowed and lead to states with `ok`. -/
def runCalls (ok : CallState → Prop) [DecidablePred ok] : List HeapCall → CallState → Option CallState
  | [], s => some s
  | c :: cs, s =>
    if Allowed s c then (call s c).bind (fun s' => if ok s' then runCalls ok cs s' else none) else none

theorem through_runCalls {H : HeapLayout} {ok : CallState → Prop} [DecidablePred ok] {cs : List HeapCall}
    {s s' : CallState} (h : Through H ok s) (he : runCalls ok cs s = some s') : Through H ok s' := by
  induction cs generalizing s with
  | nil =>
    cases he
    exact h
  | cons c cs ih =>
    rw [runCalls] at he
    by_cases hc : Allowed s c
    · rw [if_pos hc] at he
      obtain ⟨t,ht,hrest⟩ := Option.bind_eq_some_iff.mp he
      by_cases hok : ok t
      · rw [if_pos hok] at hrest
        exact ih (Through.call c h hc ht hok) hrest
      · rw [if_neg hok] at hrest
        cases hrest
    · rw [if_neg hc] at he
      cases he

/-! ## Where a stale header can lie -/

/-- The test of `kfree` turns the header away. -/
def Ignored (m : Mem) (a : ℕ) : Prop := ¬ (blockMagic m a = heapMagic ∧ blockFree m a = 0)

variable {H : HeapLayout} {r : HeapRun} {bs : List Block}

theorem span_aligned (h : ∀ b ∈ bs, b.size % 4 = 0) : span Block.len bs % 4 = 0 := by
  induction bs with
  | nil => rfl
  | cons b bs ih =>
    have hb := h b List.mem_cons_self
    have hrest := ih fun c hc => h c (List.mem_cons_of_mem _ hc)
    rw [span_cons,Block.len,headerSize]
    omega

theorem offset_aligned {m : Mem} (h : Chain H m bs) {o : ℕ} {b : Block} (hb : (o,b) ∈ place Block.len 0 bs) :
    o % 4 = 0 := by
  have hsize : ∀ c ∈ bs, c.size % 4 = 0 := by
    intro c hc
    obtain ⟨o',hc'⟩ := mem_place_of_mem hc
    exact (h.headers o' c hc').aligned
  obtain ⟨pre,post,rfl,rfl⟩ := mem_place_split hb
  rw [Nat.zero_add]
  exact span_aligned fun c hc => hsize c (List.mem_append_left _ hc)

/-- The two words `kfree` tests, seen from the block that holds the second: in all but one position the test fails
or both words are data. -/
theorem ignored_or_data (h : Tiled H r bs) {o : ℕ} (ho : o % 4 = 0) (hin : o + headerSize ≤ heapSize)
    (hlive : H.base+o+headerSize ∉ r.live)
    (hlast : ∀ q ∈ blocks r.heap, blockNext r.heap.mem q = 0 → H.base+o = q+8 →
      blockMagic r.heap.mem (q+8) ≠ heapMagic) :
    Ignored r.heap.mem (H.base+o) ∨ ∃ o' b, (o',b) ∈ place Block.len 0 bs ∧
      o' + headerSize ≤ o + 4 ∧ o + 12 ≤ o' + headerSize + b.size := by
  have hfull := h.chain.full
  obtain ⟨o',b,hb,hle,hlt⟩ := exists_mem_place (Nat.zero_le (o+8))
    (by rw [hfull,Nat.zero_add]; simp only [headerSize] at hin; omega : o + 8 < 0 + span Block.len bs)
  have hd := h.chain.headers o' b hb
  have hal := offset_aligned h.chain hb
  have hbal := hd.aligned
  have hend := (mem_place_bounds hb).2
  rw [hfull] at hend
  simp only [Block.len,headerSize,heapSize] at hlt hend hin ⊢
  have hcases : o+8 = o' ∨ o+8 = o'+4 ∨ o = o' ∨ o+8 = o'+12 ∨ o = o'+8 ∨ o'+20 ≤ o+8 := by omega
  rcases hcases with he | he | rfl | he | rfl | hdata
  · -- the magic word is the size of a block
    left
    rintro ⟨hm,-⟩
    have hsize := hd.size
    rw [← he] at hsize
    simp only [blockMagic,blockSize,heapMagic] at hm hsize
    rw [Nat.add_assoc,hsize] at hm
    omega
  · -- the magic word is a free word
    left
    rintro ⟨hm,-⟩
    have hfree := hd.free
    simp only [blockMagic,blockFree] at hm hfree
    rw [Nat.add_assoc,he,← Nat.add_assoc,hfree] at hm
    cases hbf : b.free <;> rw [hbf] at hm <;> cases hm
  · -- a block of the list that is not live
    left
    rintro ⟨-,hf⟩
    rw [hd.free] at hf
    cases hbf : b.free with
    | true =>
      rw [hbf] at hf
      cases hf
    | false => exact hlive ((h.live _).mpr ⟨_,b,hb,hbf,rfl⟩)
  · -- the free word is a magic word
    left
    rintro ⟨-,hf⟩
    have hmagic := hd.magic
    simp only [blockMagic,blockFree] at hf hmagic
    rw [Nat.add_assoc,(by omega : o+4 = o'+8),← Nat.add_assoc,hmagic] at hf
    cases hf
  · -- the free word is the `next` of the block
    left
    rintro ⟨hm,hf⟩
    have hq : H.base + o' ∈ blocks r.heap := (mem_blocks h).mpr ⟨o',b,hb,rfl⟩
    have hnext : blockNext r.heap.mem (H.base+o') = 0 := hf
    exact hlast _ hq hnext rfl hm
  · exact Or.inr ⟨o',b,hb,by omega,by omega⟩

theorem ignored_congr {m m' : Mem} {a : ℕ} (h : ∀ x, a + 4 ≤ x → x < a + 12 → m' x = m x) (hi : Ignored m a) :
    Ignored m' a := by
  have hmagic : blockMagic m' a = blockMagic m a := read32_congr fun x h1 h2 => h x (by omega) (by omega)
  have hfree : blockFree m' a = blockFree m a := read32_congr fun x h1 h2 => h x (by omega) (by omega)
  unfold Ignored
  rw [hmagic,hfree]
  exact hi

/-- Setting a free word turns the header away, and no other header is let in. -/
theorem ignored_setFree {m : Mem} {a b : ℕ} (hal : a % 4 = b % 4) (hi : a = b ∨ Ignored m a) :
    Ignored (setFree m b 1) a := by
  by_cases hab : a = b
  · subst hab
    rintro ⟨-,hf⟩
    rw [blockFree,setFree,read32_write32_same] at hf
    cases hf
  by_cases hab' : a + 4 = b
  · subst hab'
    rintro ⟨hm,-⟩
    have hword : a + 4 + 4 = a + 8 := by omega
    rw [blockMagic,setFree,hword,read32_write32_same] at hm
    cases hm
  · apply ignored_congr _ (hi.resolve_left hab)
    intro x h1 h2
    apply write32_of_outside
    omega

/-! ## Histories -/

/-- The block list tiles the heap, every pointer ever returned follows the place of a header, and those that are not
live are turned away. -/
structure Guarded (H : HeapLayout) (s : CallState) (bs : List Block) : Prop where
  tiled : Tiled H s.run bs
  places : ∀ p ∈ s.returned, ∃ o, p = H.base+o+headerSize ∧ o % 4 = 0 ∧ o + headerSize ≤ heapSize
  ignored : ∀ p ∈ s.returned, p ∉ s.run.live → Ignored s.run.heap.mem (p-headerSize)

variable {s s' : CallState}

theorem Guarded.boot (H : HeapLayout) (m : Mem) : Guarded H (StaleFree.boot H m) [⟨heapSize-headerSize,true⟩] := by
  constructor
  · exact Tiled.boot H m
  · intro p hp
    cases hp
  · intro p hp
    cases hp

/-- `kfree` returns at its test. -/
theorem Guarded.kfree_stale (h : Guarded H s bs) {p : ℕ} (hp : p ∈ s.returned) (hstale : p ∉ s.run.live) :
    Kmem.kfree s.run.heap p = some s.run.heap := by
  have hH := H.fits
  have hi := h.ignored p hp hstale
  obtain ⟨o,rfl,-,hin⟩ := h.places p hp
  rw [Nat.add_sub_cancel] at hi
  have hblock : (H.base+o+headerSize+(2^32-headerSize)) % 2^32 = H.base+o := by
    simp only [headerSize,heapSize] at *
    omega
  rw [Kmem.kfree,if_neg (by simp only [headerSize]; omega)]
  simp only [hblock]
  rw [if_pos]
  by_cases hm : blockMagic s.run.heap.mem (H.base+o) = heapMagic
  · exact Or.inr fun hf => hi ⟨hm,hf⟩
  · exact Or.inl hm

/-- A call that writes only headers of the new list, on top of memory where the stale headers are turned away. -/
theorem Guarded.next {bs' : List Block} {m : Mem} (h : Tiled H s'.run bs') (hclean : LastClean s')
    (hplaces : ∀ p ∈ s'.returned, ∃ o, p = H.base+o+headerSize ∧ o % 4 = 0 ∧ o + headerSize ≤ heapSize)
    (hw : OnlyHeaders H m s'.run.heap.mem bs')
    (hold : ∀ p ∈ s'.returned, p ∉ s'.run.live → Ignored m (p-headerSize)) : Guarded H s' bs' := by
  refine ⟨h,hplaces,?_⟩
  intro p hp hstale
  have hi := hold p hp hstale
  obtain ⟨o,rfl,hal,hin⟩ := hplaces p hp
  rw [Nat.add_sub_cancel] at hi ⊢
  have hlast : ∀ q ∈ blocks s'.run.heap, blockNext s'.run.heap.mem q = 0 → H.base+o = q+8 →
      blockMagic s'.run.heap.mem (q+8) ≠ heapMagic := by
    intro q hq hnext he
    exact hclean q hq hnext (he ▸ hp)
  rcases ignored_or_data h hal hin hstale hlast with hdone | ⟨o',b,hb,h1,h2⟩
  · exact hdone
  · apply ignored_congr _ hi
    intro x hx hx'
    exact hw.data hb (by omega) (by omega)

theorem Guarded.take {pre post : List Block} {b : Block} {size : ℕ} (h : Guarded H s (pre++b :: post))
    (hb : b.free = true) (hfit : roundUp size ≤ b.size)
    (hclean : LastClean ⟨⟨⟨(takeBlock s.run.heap.mem (H.base+span Block.len pre) (roundUp size)).2,s.run.heap.head⟩,
      insert (H.base+span Block.len pre+headerSize) s.run.live⟩,
      insert (H.base+span Block.len pre+headerSize) s.returned⟩) :
    Guarded H ⟨⟨⟨(takeBlock s.run.heap.mem (H.base+span Block.len pre) (roundUp size)).2,s.run.heap.head⟩,
      insert (H.base+span Block.len pre+headerSize) s.run.live⟩,
      insert (H.base+span Block.len pre+headerSize) s.returned⟩ (pre++taken b (roundUp size)++post) := by
  refine Guarded.next (h.tiled.take hb hfit) hclean ?_ (takeBlock_onlyHeaders h.tiled.chain hfit) ?_
  · intro p hp
    rcases Finset.mem_insert.mp hp with rfl | hp
    · have hle := h.tiled.chain.mid_le
      exact ⟨_,rfl,offset_aligned h.tiled.chain Chain.mid_mem,by omega⟩
    · exact h.places p hp
  · intro p hp hstale
    rw [Finset.mem_insert,not_or] at hstale
    exact h.ignored p (Finset.mem_of_mem_insert_of_ne hp hstale.1) hstale.2

theorem Guarded.free (h : Guarded H s bs) {p : ℕ} (hp : p ∈ s.run.live) {h' : Heap}
    (he : Kmem.kfree s.run.heap p = some h') (hclean : LastClean ⟨⟨h',s.run.live.erase p⟩,s.returned⟩) :
    ∃ bs', Guarded H ⟨⟨h',s.run.live.erase p⟩,s.returned⟩ bs' := by
  obtain ⟨pre,b,post,c,rest,m',rfl,hb,rfl,hcons,he',hnew,hw⟩ := h.tiled.kfree_cases hp
  rw [he] at he'
  cases he'
  refine ⟨_,Guarded.next hnew hclean h.places hw ?_⟩
  intro q hq hstale
  rw [Finset.mem_erase,not_and_or,not_not] at hstale
  have hmem : (span Block.len pre,b) ∈ place Block.len 0 (pre++b :: post) := Chain.mid_mem
  have hal := offset_aligned h.tiled.chain hmem
  obtain ⟨o,ho,hal',-⟩ := h.places q hq
  rw [ho,Nat.add_sub_cancel]
  apply ignored_setFree (by omega)
  rcases hstale with heq | hstale
  · left
    omega
  · right
    have hi := h.ignored q hq hstale
    rw [ho,Nat.add_sub_cancel] at hi
    exact hi

theorem Guarded.call (h : Guarded H s bs) {c : HeapCall} (hc : Allowed s c) (he : StaleFree.call s c = some s')
    (hclean : LastClean s') : ∃ bs', Guarded H s' bs' := by
  cases c with
  | kmalloc size =>
    obtain ⟨r,hr,hs'⟩ := Option.map_eq_some_iff.mp he
    by_cases hz : size = 0
    · rw [Kmem.kmalloc,if_pos hz] at hr
      cases hr
      rw [if_pos rfl] at hs'
      subst hs'
      exact ⟨bs,h⟩
    rcases h.tiled.kmalloc_cases hz with ⟨hnull,-⟩ | ⟨pre,b,post,rfl,hb,hfit,htake⟩
    · rw [hr] at hnull
      cases hnull
      rw [if_pos rfl] at hs'
      subst hs'
      exact ⟨bs,h⟩
    · rw [hr] at htake
      cases htake
      rw [if_neg (by simp only [headerSize]; omega)] at hs'
      subst hs'
      exact ⟨_,h.take hb hfit hclean⟩
  | kfree p =>
    obtain ⟨h',hr,rfl⟩ := Option.map_eq_some_iff.mp he
    by_cases hp : p ∈ s.run.live
    · exact h.free hp hr hclean
    · have hsame : Kmem.kfree s.run.heap p = some s.run.heap := by
        rcases hc with rfl | hret
        · rw [Kmem.kfree,if_pos rfl]
        · exact h.kfree_stale hret hp
      rw [hr] at hsame
      cases hsame
      rw [Finset.erase_eq_of_notMem hp]
      exact ⟨bs,h⟩

theorem guarded_of_through (h : Through H LastClean s) : ∃ bs, Guarded H s bs := by
  induction h with
  | boot m _ => exact ⟨_,Guarded.boot H m⟩
  | call c _ hc he hclean ih =>
    obtain ⟨bs,hbs⟩ := ih
    exact hbs.call hc he hclean

/-- As long as the last block of no state of the history reads as a stale header, stale pointers are ignored. -/
theorem stale_ignored (h : Through H LastClean s) : StaleIgnored s := by
  obtain ⟨bs,hbs⟩ := guarded_of_through h
  intro p hp hstale
  exact hbs.kfree_stale hp hstale

/-- Two blocks allocated and freed: the first pointer is stale and ignored. -/
theorem stale_ignored_twoBlocks : ∃ s, Through sampleLayout LastClean s ∧ 0x100010 ∈ s.returned ∧
    0x100010 ∉ s.run.live ∧ Kmem.kfree s.run.heap 0x100010 = some s.run.heap := by
  have hrun : (runCalls LastClean [.kmalloc 16,.kmalloc 4,.kfree 0x100010,.kfree 0x100030]
      (StaleFree.boot sampleLayout (fun _ => 0))).map (fun s =>
        (decide (0x100010 ∈ s.returned),decide (0x100010 ∈ s.run.live))) = some (true,false) := by
    decide +kernel
  obtain ⟨s,hs,he⟩ := Option.map_eq_some_iff.mp hrun
  simp only [Prod.mk.injEq,decide_eq_true_eq,decide_eq_false_iff_not] at he
  have hthrough := through_runCalls (Through.boot (fun _ => 0) (by decide +kernel)) hs
  exact ⟨s,hthrough,he.1,he.2,stale_ignored hthrough _ he.1 he.2⟩

/-- Then a request for 8 bytes splits the merged block so that the `next` of the last block stands where the free word
of the second stale header was, and freeing its pointer again writes into the list. -/
theorem stale_free_writes : ∃ s h', Through sampleLayout (fun _ => True) s ∧ 0x100030 ∈ s.returned ∧
    0x100030 ∉ s.run.live ∧ Kmem.kfree s.run.heap 0x100030 = some h' ∧
    read32 s.run.heap.mem 0x100024 = 0 ∧ read32 h'.mem 0x100024 = 1 ∧ ¬ StaleIgnored s := by
  have hrun : (runCalls (fun _ => True) [.kmalloc 16,.kmalloc 4,.kfree 0x100010,.kfree 0x100030,.kmalloc 8]
      (StaleFree.boot sampleLayout (fun _ => 0))).map (fun s =>
        (decide (0x100030 ∈ s.returned),decide (0x100030 ∈ s.run.live),
          (Kmem.kfree s.run.heap 0x100030).map (fun h => read32 h.mem 0x100024),
          read32 s.run.heap.mem 0x100024)) = some (true,false,some 1,0) := by
    decide +kernel
  obtain ⟨s,hs,he⟩ := Option.map_eq_some_iff.mp hrun
  simp only [Prod.mk.injEq,decide_eq_true_eq,decide_eq_false_iff_not] at he
  obtain ⟨hret,hstale,hfreed,hword⟩ := he
  obtain ⟨h',hcall,hnew⟩ := Option.map_eq_some_iff.mp hfreed
  refine ⟨s,h',through_runCalls (Through.boot (fun _ => 0) trivial) hs,hret,hstale,hcall,hword,hnew,?_⟩
  intro hsame
  have hkept := hsame _ hret hstale
  rw [hcall] at hkept
  cases hkept
  rw [hword] at hnew
  cases hnew

end VesperOS.StaleFree
