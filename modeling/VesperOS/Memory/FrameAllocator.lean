import Mathlib.Tactic

/-! # The bitmap frame allocator

`pmm.c`: one bit for each 4 KB frame of the first 32 MB, packed eight to a byte,
with a counter of free frames that is kept beside the bitmap and not recomputed
from it. All counters are 32-bit words. The boot memory map is the array that
the bootloader leaves at 0x0500; its `count` is the length of the entry list.
-/
namespace VesperOS.FrameAllocator

/-- `PMM_PAGE_SIZE`. -/
def pageSize : ℕ := 4096
/-- `PMM_MAX_PHYS`, 32 MB. -/
def maxPhys : ℕ := 33554432
/-- `PMM_TOTAL_FRAMES`. -/
def totalFrames : ℕ := 8192
/-- Number of frames below 1 MB, `0x100000 / PMM_PAGE_SIZE`. -/
def lowFrames : ℕ := 256

structure E820Entry where
  base : UInt64
  length : UInt64
  type : UInt32

/-- The header's `count` and the 32-entry array behind it. -/
structure BootMmap where
  entries : List E820Entry
  count_le : entries.length ≤ 32

/-- `pmm_bitmap`, `pmm_free` and `pmm_total`. -/
structure Pmm where
  bitmap : ℕ → BitVec 8
  free : ℕ
  total : ℕ

def pmmSetUsed (p : Pmm) (frame : ℕ) : Pmm :=
  { p with bitmap := Function.update p.bitmap (frame/8) (p.bitmap (frame/8) ||| (1#8 <<< (frame%8))) }

def pmmSetFree (p : Pmm) (frame : ℕ) : Pmm :=
  { p with bitmap := Function.update p.bitmap (frame/8) (p.bitmap (frame/8) &&& ~~~(1#8 <<< (frame%8))) }

def pmmIsUsed (p : Pmm) (frame : ℕ) : Bool := (p.bitmap (frame/8)).getLsbD (frame%8)

/-- `pmm_set_used(f); if (pmm_free > 0) pmm_free--;`. -/
def takeFrame (p : Pmm) (f : ℕ) : Pmm :=
  { pmmSetUsed p f with free := if 0 < p.free then p.free - 1 else p.free }

/-- `pmm_set_free(f); pmm_free++;`. -/
def releaseFrame (p : Pmm) (f : ℕ) : Pmm :=
  { pmmSetFree p f with free := (p.free+1) % 2^32 }

/-- Body of the loop of `pmm_reserve_range`. -/
def reserveFrame (p : Pmm) (f : ℕ) : Pmm := if pmmIsUsed p f then p else takeFrame p f

/-- Both arguments are 64-bit and their sum wraps. -/
def pmmReserveRange (p : Pmm) (base len : ℕ) : Pmm :=
  if maxPhys ≤ base then p
  else
    let len := if maxPhys < (base+len) % 2^64 then maxPhys - base else len
    let start := base/pageSize
    let stop := min (((base+len+pageSize-1) % 2^64)/pageSize) totalFrames
    (List.range' start (stop-start)).foldl reserveFrame p

/-- One iteration of the E820 loop. -/
def addEntry (p : Pmm) (e : E820Entry) : Pmm :=
  if e.type ≠ 1 then p
  else if maxPhys ≤ e.base.toNat then p
  else
    let stop := min ((e.base.toNat+e.length.toNat) % 2^64) maxPhys
    let startFrame := (e.base.toNat+pageSize-1)/pageSize
    let endFrame := min (stop/pageSize) totalFrames
    let p := (List.range' startFrame (endFrame-startFrame)).foldl releaseFrame p
    { p with total := (p.total+endFrame+(2^32-startFrame)) % 2^32 }

/-- Everything used, both counters zero. -/
def allUsed : Pmm := ⟨fun _ => 0xFF#8,0,0⟩

def pmmInit (mmap : BootMmap) : Pmm :=
  if mmap.entries.length = 0 then
    let p := (List.range' lowFrames (totalFrames-lowFrames)).foldl
      (fun p f => { releaseFrame p f with total := (p.total+1) % 2^32 }) allUsed
    { p with total := (p.total+lowFrames) % 2^32 }
  else pmmReserveRange (mmap.entries.foldl addEntry allUsed) 0 0x100000

/-- First-fit scan; address 0 reports that no frame is free. -/
def pmmAllocFrame (p : Pmm) : ℕ × Pmm :=
  match (List.range totalFrames).find? (fun f => !pmmIsUsed p f) with
  | some f => (f*pageSize,takeFrame p f)
  | none => (0,p)

def pmmFreeFrame (p : Pmm) (physAddr : ℕ) : Pmm :=
  let f := physAddr/pageSize
  if totalFrames ≤ f then p
  else if pmmIsUsed p f then releaseFrame p f
  else p

/-! ## The bitmap as a set of frames -/

theorem bit_index {f g : ℕ} (h : f/8 = g/8) (hm : f%8 = g%8) : f = g := by omega

@[simp] theorem isUsed_setUsed (p : Pmm) (f g : ℕ) :
    pmmIsUsed (pmmSetUsed p f) g = (decide (g = f) || pmmIsUsed p g) := by
  have hf : f%8 < 8 := Nat.mod_lt _ (by decide)
  have hg : g%8 < 8 := Nat.mod_lt _ (by decide)
  simp only [pmmIsUsed,pmmSetUsed,Function.update_apply]
  by_cases hq : g/8 = f/8
  · rw [if_pos hq,hq,BitVec.getLsbD_or,BitVec.getLsbD_shiftLeft,BitVec.getLsbD_one]
    by_cases hr : g%8 = f%8
    · simp [bit_index hq hr,hf]
    · have hne : g ≠ f := fun h => hr (by rw [h])
      have hr' : g%8 < f%8 ∨ ¬ (g%8-f%8 = 0) := by omega
      rcases hr' with h | h <;> simp [hne,h]
  · have hne : g ≠ f := fun h => hq (by rw [h])
    simp [hq,hne]

@[simp] theorem isUsed_setFree (p : Pmm) (f g : ℕ) :
    pmmIsUsed (pmmSetFree p f) g = (decide (g ≠ f) && pmmIsUsed p g) := by
  have hf : f%8 < 8 := Nat.mod_lt _ (by decide)
  have hg : g%8 < 8 := Nat.mod_lt _ (by decide)
  simp only [pmmIsUsed,pmmSetFree,Function.update_apply]
  by_cases hq : g/8 = f/8
  · rw [if_pos hq,hq,BitVec.getLsbD_and,BitVec.getLsbD_not,BitVec.getLsbD_shiftLeft,BitVec.getLsbD_one]
    by_cases hr : g%8 = f%8
    · simp [bit_index hq hr,hf]
    · have hne : g ≠ f := fun h => hr (by rw [h])
      have hr' : g%8 < f%8 ∨ ¬ (g%8-f%8 = 0) := by omega
      rcases hr' with h | h <;> simp [hne,h,hg]
  · have hne : g ≠ f := fun h => hq (by rw [h])
    simp [hq,hne]

@[simp] theorem isUsed_takeFrame (p : Pmm) (f g : ℕ) :
    pmmIsUsed (takeFrame p f) g = (decide (g = f) || pmmIsUsed p g) := isUsed_setUsed p f g

@[simp] theorem isUsed_releaseFrame (p : Pmm) (f g : ℕ) :
    pmmIsUsed (releaseFrame p f) g = (decide (g ≠ f) && pmmIsUsed p g) := isUsed_setFree p f g

theorem takeFrame_free {p : Pmm} (f : ℕ) (h : 0 < p.free) : (takeFrame p f).free = p.free - 1 :=
  if_pos h

/-- The bits determine the packed bytes. -/
theorem bitmap_ext {p q : Pmm} (h : ∀ f, pmmIsUsed p f = pmmIsUsed q f) : p.bitmap = q.bitmap := by
  funext i
  apply BitVec.eq_of_getLsbD_eq
  intro k hk
  have hf := h (8*i+k)
  have hd : (8*i+k)/8 = i := by omega
  have hm : (8*i+k)%8 = k := by omega
  simpa [pmmIsUsed,hd,hm] using hf

/-! ## The free counter and the bitmap -/

/-- The free frames the allocator can hand out. -/
def freeSet (p : Pmm) : Finset ℕ := (Finset.range totalFrames).filter (fun f => pmmIsUsed p f = false)

/-- Number of zero bits of the bitmap. -/
def freeCount (p : Pmm) : ℕ := (freeSet p).card

@[simp] theorem mem_freeSet {p : Pmm} {f : ℕ} :
    f ∈ freeSet p ↔ f < totalFrames ∧ pmmIsUsed p f = false := by
  simp [freeSet]

theorem freeCount_le (p : Pmm) : freeCount p ≤ totalFrames := by
  simpa [freeCount,freeSet] using Finset.card_filter_le (Finset.range totalFrames) _

theorem freeSet_congr {p q : Pmm} (h : ∀ f, pmmIsUsed p f = pmmIsUsed q f) : freeSet p = freeSet q := by
  ext f
  simp [h]

theorem freeCount_takeFrame {p : Pmm} {f : ℕ} (hf : f < totalFrames) (hu : pmmIsUsed p f = false) :
    freeCount (takeFrame p f) + 1 = freeCount p := by
  have he : freeSet (takeFrame p f) = (freeSet p).erase f := by
    ext g
    simp only [mem_freeSet,isUsed_takeFrame,Finset.mem_erase,Bool.or_eq_false_iff,decide_eq_false_iff_not]
    tauto
  rw [freeCount,he]
  exact Finset.card_erase_add_one (mem_freeSet.mpr ⟨hf,hu⟩)

theorem freeCount_releaseFrame {p : Pmm} {f : ℕ} (hf : f < totalFrames) (hu : pmmIsUsed p f = true) :
    freeCount (releaseFrame p f) = freeCount p + 1 := by
  have he : freeSet (releaseFrame p f) = insert f (freeSet p) := by
    ext g
    simp only [mem_freeSet,isUsed_releaseFrame,Finset.mem_insert,Bool.and_eq_false_iff,decide_eq_false_iff_not,
      not_not]
    constructor
    · rintro ⟨hg,h | h⟩
      · exact Or.inl h
      · exact Or.inr ⟨hg,h⟩
    · rintro (h | ⟨hg,h⟩)
      · exact ⟨h ▸ hf,Or.inl h⟩
      · exact ⟨hg,Or.inr h⟩
  rw [freeCount,he]
  exact Finset.card_insert_of_notMem (by simp [hu])

/-- What `pmm_init` establishes and every later operation keeps: the first
megabyte stays reserved, and the counter never falls below the number of zero
bits (it lies above it by the frames that overlapping map entries count twice). -/
structure Sound (p : Pmm) : Prop where
  low : ∀ f < lowFrames, pmmIsUsed p f = true
  counted : freeCount p ≤ p.free
  room : p.free - freeCount p + totalFrames < 2^32

/-- The surplus of the counter over the bitmap. -/
def surplus (p : Pmm) : ℕ := p.free - freeCount p

/-- Equal bits and equal surplus give equal counters. -/
theorem free_eq_of_surplus {p q : Pmm} (hp : freeCount p ≤ p.free) (hq : freeCount q ≤ q.free)
    (hb : ∀ f, pmmIsUsed p f = pmmIsUsed q f) (hs : surplus p = surplus q) : p.free = q.free := by
  have hc : freeCount p = freeCount q := by rw [freeCount,freeSet_congr hb,freeCount]
  simp only [surplus] at hs
  omega

/-- `q` is the sound allocator `p` after frame `f` was handed out: `f` was free
and lies above 1 MB, and nothing but its bit and the counter changed. -/
structure Takes (p q : Pmm) (f : ℕ) : Prop where
  low : lowFrames ≤ f
  lt : f < totalFrames
  unused : pmmIsUsed p f = false
  bits : ∀ g, pmmIsUsed q g = (decide (g = f) || pmmIsUsed p g)
  sound : Sound q
  surplus_eq : surplus q = surplus p
  count : freeCount q + 1 = freeCount p

theorem Takes.used {p q : Pmm} {f : ℕ} (h : Takes p q f) : pmmIsUsed q f = true := by
  rw [h.bits]
  simp

theorem Takes.mono {p q : Pmm} {f g : ℕ} (h : Takes p q f) (hg : pmmIsUsed p g = true) :
    pmmIsUsed q g = true := by
  rw [h.bits,hg]
  simp

/-- A frame in use is not the one handed out. -/
theorem Takes.ne {p q : Pmm} {f g : ℕ} (h : Takes p q f) (hg : pmmIsUsed p g = true) : g ≠ f := by
  intro he
  rw [he,h.unused] at hg
  cases hg

/-- The address 0, with which `pmm_alloc_frame` reports failure, is no frame's. -/
theorem Takes.addr_ne_zero {p q : Pmm} {f : ℕ} (h : Takes p q f) : 4096*f ≠ 0 := by
  have hlow := h.low
  unfold lowFrames at hlow
  omega

/-- Specification of the first-fit scan on a sound allocator: it fails exactly
when no bit is clear. -/
theorem allocFrame_cases {p : Pmm} (hs : Sound p) :
    (freeCount p = 0 ∧ pmmAllocFrame p = (0,p)) ∨
    ∃ f q, pmmAllocFrame p = (4096*f,q) ∧ Takes p q f := by
  unfold pmmAllocFrame
  cases h : (List.range totalFrames).find? (fun f => !pmmIsUsed p f) with
  | none =>
    left
    refine ⟨?_,rfl⟩
    rw [freeCount,Finset.card_eq_zero,Finset.eq_empty_iff_forall_notMem]
    intro f hf
    rw [mem_freeSet] at hf
    have := List.find?_eq_none.mp h f (List.mem_range.mpr hf.1)
    simp [hf.2] at this
  | some f =>
    right
    have hf : f < totalFrames := List.mem_range.mp (List.mem_of_find?_eq_some h)
    have hu : pmmIsUsed p f = false := by simpa using List.find?_some h
    have hlow : lowFrames ≤ f := by
      by_contra hlt
      rw [hs.low f (by omega)] at hu
      cases hu
    have hc := freeCount_takeFrame hf hu
    have hcnt := hs.counted
    have hroom := hs.room
    have hfree := takeFrame_free (p := p) f (by omega)
    refine ⟨f,takeFrame p f,congrArg (·,takeFrame p f) (Nat.mul_comm f pageSize),hlow,hf,hu,isUsed_takeFrame p f,?_,?_,hc⟩
    · refine ⟨fun g hg => ?_,by omega,by omega⟩
      simp [hs.low g hg]
    · rw [surplus,surplus]
      omega

/-- Freeing a used frame above 1 MB clears its bit and nothing else. -/
theorem isUsed_freeFrame (p : Pmm) (a g : ℕ) :
    pmmIsUsed (pmmFreeFrame p a) g =
      if g = a/pageSize ∧ g < totalFrames then false else pmmIsUsed p g := by
  simp only [pmmFreeFrame]
  split
  · rw [if_neg (by omega)]
  · split
    · rename_i h1 h2
      rw [isUsed_releaseFrame]
      by_cases hg : g = a/pageSize
      · rw [if_pos ⟨hg,by omega⟩]
        simp [hg]
      · rw [if_neg (fun h => hg h.1)]
        simp [hg]
    · rename_i h1 h2
      split
      · rename_i hg
        rw [hg.1]
        simpa using h2
      · rfl

theorem freeFrame_sound {p : Pmm} (hs : Sound p) {a : ℕ} (ha : lowFrames ≤ a/pageSize) :
    Sound (pmmFreeFrame p a) ∧ surplus (pmmFreeFrame p a) = surplus p := by
  have hcnt := hs.counted
  have hroom := hs.room
  have hlow : ∀ f < lowFrames, pmmIsUsed (pmmFreeFrame p a) f = true := by
    intro f hf
    rw [isUsed_freeFrame,if_neg (by omega)]
    exact hs.low f hf
  by_cases hf : totalFrames ≤ a/pageSize
  · have he : pmmFreeFrame p a = p := by simp [pmmFreeFrame,hf]
    rw [he]
    exact ⟨hs,rfl⟩
  · cases hu : pmmIsUsed p (a/pageSize) with
    | false =>
      have he : pmmFreeFrame p a = p := by simp [pmmFreeFrame,hu]
      rw [he]
      exact ⟨hs,rfl⟩
    | true =>
      have he : pmmFreeFrame p a = releaseFrame p (a/pageSize) := by
        simp [pmmFreeFrame,hu,hf]
      have hc : freeCount (pmmFreeFrame p a) = freeCount p + 1 := by
        rw [he]
        exact freeCount_releaseFrame (by omega) hu
      have hle := freeCount_le (pmmFreeFrame p a)
      have hfree : (pmmFreeFrame p a).free = p.free + 1 := by
        rw [he]
        exact Nat.mod_eq_of_lt (by omega)
      refine ⟨⟨hlow,by omega,by omega⟩,?_⟩
      rw [surplus,surplus]
      omega

/-! ## Releasing a set of frames -/

/-- `p'` is `p` after the frames of `S` were given back: exactly their bits are
cleared, and the counter moved with them. -/
structure Releases (p p' : Pmm) (S : Set ℕ) : Prop where
  bits : ∀ g, pmmIsUsed p' g = true ↔ pmmIsUsed p g = true ∧ ¬ (g < totalFrames ∧ g ∈ S)
  counters : Sound p → (∀ g ∈ S, lowFrames ≤ g) → Sound p' ∧ surplus p' = surplus p

theorem Releases.refl (p : Pmm) : Releases p p ∅ := ⟨by simp,fun h _ => ⟨h,rfl⟩⟩

theorem releases_freeFrame (p : Pmm) (a : ℕ) : Releases p (pmmFreeFrame p a) {a/pageSize} := by
  refine ⟨fun g => ?_,fun hs hl => freeFrame_sound hs (hl _ rfl)⟩
  rw [isUsed_freeFrame]
  simp only [Set.mem_singleton_iff]
  by_cases hg : g = a/pageSize ∧ g < totalFrames
  · rw [if_pos hg]
    exact ⟨fun h => by simp at h,fun h => absurd hg.symm h.2⟩
  · rw [if_neg hg]
    exact ⟨fun h => ⟨h,fun hn => hg hn.symm⟩,fun h => h.1⟩

theorem Releases.trans {p q r : Pmm} {S T : Set ℕ} (h : Releases p q S) (h' : Releases q r T) :
    Releases p r (S ∪ T) := by
  refine ⟨fun g => ?_,fun hs hl => ?_⟩
  · rw [h'.bits,h.bits,Set.mem_union]
    tauto
  · obtain ⟨hq,he⟩ := h.counters hs (fun g hg => hl g (Or.inl hg))
    obtain ⟨hr,he'⟩ := h'.counters hq (fun g hg => hl g (Or.inr hg))
    exact ⟨hr,he'.trans he⟩

/-- A loop whose body releases the frames `S j` releases all of them. -/
theorem Releases.foldl {ι : Type*} {step : Pmm → ι → Pmm} {S : ι → Set ℕ}
    (hstep : ∀ p j, Releases p (step p j) (S j)) (L : List ι) (p : Pmm) :
    Releases p (L.foldl step p) {g | ∃ j ∈ L, g ∈ S j} := by
  induction L generalizing p with
  | nil => simpa using Releases.refl p
  | cons j L ih =>
    have h := (hstep p j).trans (ih (step p j))
    have he : S j ∪ {g | ∃ i ∈ L, g ∈ S i} = {g | ∃ i ∈ j :: L, g ∈ S i} := by
      ext g
      simp
    rw [he] at h
    exact h

/-! ## `pmm_init` -/

/-- While the pool is filled the counter only runs ahead of the bitmap. -/
theorem releaseFrame_counts {p : Pmm} {f b : ℕ} (hf : f < totalFrames) (hc : freeCount p ≤ p.free)
    (hb : p.free ≤ b) (hlt : b + 1 < 2^32) :
    freeCount (releaseFrame p f) ≤ (releaseFrame p f).free ∧ (releaseFrame p f).free ≤ b + 1 := by
  have hfree : (releaseFrame p f).free = p.free + 1 := Nat.mod_eq_of_lt (by omega)
  have hcount : freeCount (releaseFrame p f) ≤ freeCount p + 1 := by
    cases hu : pmmIsUsed p f with
    | true => exact (freeCount_releaseFrame hf hu).le
    | false =>
      have he : freeSet (releaseFrame p f) = freeSet p := by
        ext g
        simp only [mem_freeSet,isUsed_releaseFrame]
        by_cases hg : g = f
        · simp [hg,hu]
        · simp [hg]
      rw [freeCount,he]
      exact Nat.le_succ _
  omega

theorem releaseFrames_counts (fs : List ℕ) (hfs : ∀ f ∈ fs, f < totalFrames) {p : Pmm} {b : ℕ}
    (hc : freeCount p ≤ p.free) (hb : p.free ≤ b) (hlt : b + fs.length < 2^32) :
    freeCount (fs.foldl releaseFrame p) ≤ (fs.foldl releaseFrame p).free ∧
      (fs.foldl releaseFrame p).free ≤ b + fs.length := by
  induction fs generalizing p b with
  | nil => exact ⟨hc,hb⟩
  | cons f fs ih =>
    rw [List.length_cons] at hlt
    have h := releaseFrame_counts (hfs f List.mem_cons_self) hc hb (by omega)
    have hh := ih (fun g hg => hfs g (List.mem_cons_of_mem _ hg)) h.1 h.2 (by omega)
    rw [List.foldl_cons,List.length_cons]
    exact ⟨hh.1,by omega⟩

theorem addEntry_counts {p : Pmm} {b : ℕ} (e : E820Entry) (hc : freeCount p ≤ p.free) (hb : p.free ≤ b)
    (hlt : b + totalFrames < 2^32) :
    freeCount (addEntry p e) ≤ (addEntry p e).free ∧ (addEntry p e).free ≤ b + totalFrames := by
  unfold addEntry
  split
  · exact ⟨hc,by omega⟩
  · split
    · exact ⟨hc,by omega⟩
    · dsimp only
      set startFrame := (e.base.toNat+pageSize-1)/pageSize
      set endFrame := min ((min ((e.base.toNat+e.length.toNat) % 2^64) maxPhys)/pageSize) totalFrames
      have hend : endFrame ≤ totalFrames := Nat.min_le_right _ _
      have hlen : (List.range' startFrame (endFrame-startFrame)).length ≤ totalFrames := by
        rw [List.length_range']
        exact (Nat.sub_le _ _).trans hend
      have h := releaseFrames_counts (List.range' startFrame (endFrame-startFrame))
        (fun f hf => by rw [List.mem_range'_1] at hf; omega) hc hb (by omega)
      exact ⟨h.1,h.2.trans (Nat.add_le_add_left hlen b)⟩

theorem addEntries_counts (es : List E820Entry) {p : Pmm} {b : ℕ} (hc : freeCount p ≤ p.free)
    (hb : p.free ≤ b) (hlt : b + totalFrames*es.length < 2^32) :
    freeCount (es.foldl addEntry p) ≤ (es.foldl addEntry p).free ∧
      (es.foldl addEntry p).free ≤ b + totalFrames*es.length := by
  induction es generalizing p b with
  | nil => exact ⟨hc,hb⟩
  | cons e es ih =>
    rw [List.length_cons,Nat.mul_succ] at hlt
    have h := addEntry_counts e hc hb (by omega)
    have hh := ih h.1 h.2 (by omega)
    rw [List.foldl_cons,List.length_cons,Nat.mul_succ]
    exact ⟨hh.1,by omega⟩

theorem reserveFrame_spec {p : Pmm} {f : ℕ} (hf : f < totalFrames) (hc : freeCount p ≤ p.free) :
    freeCount (reserveFrame p f) ≤ (reserveFrame p f).free ∧ (reserveFrame p f).free ≤ p.free ∧
      ∀ g, pmmIsUsed (reserveFrame p f) g = (decide (g = f) || pmmIsUsed p g) := by
  unfold reserveFrame
  split
  · rename_i hu
    refine ⟨hc,le_rfl,fun g => ?_⟩
    by_cases hg : g = f
    · simp [hg,hu]
    · simp [hg]
  · rename_i hu
    have h := freeCount_takeFrame hf (by simpa using hu)
    have hfree := takeFrame_free (p := p) f (by omega)
    exact ⟨by omega,by omega,isUsed_takeFrame p f⟩

theorem reserveFrames_spec (fs : List ℕ) (hfs : ∀ f ∈ fs, f < totalFrames) {p : Pmm}
    (hc : freeCount p ≤ p.free) :
    freeCount (fs.foldl reserveFrame p) ≤ (fs.foldl reserveFrame p).free ∧
      (fs.foldl reserveFrame p).free ≤ p.free ∧
      ∀ g, pmmIsUsed (fs.foldl reserveFrame p) g = (decide (g ∈ fs) || pmmIsUsed p g) := by
  induction fs generalizing p with
  | nil => exact ⟨hc,le_rfl,by simp⟩
  | cons f fs ih =>
    obtain ⟨h1,h2,h3⟩ := reserveFrame_spec (hfs f List.mem_cons_self) hc
    obtain ⟨k1,k2,k3⟩ := ih (fun g hg => hfs g (List.mem_cons_of_mem _ hg)) h1
    rw [List.foldl_cons]
    refine ⟨k1,k2.trans h2,fun g => ?_⟩
    rw [k3,h3]
    by_cases hg : g = f <;> simp [hg]

@[simp] theorem isUsed_allUsed (f : ℕ) : pmmIsUsed allUsed f = true := by
  have h : f%8 < 8 := Nat.mod_lt _ (by decide)
  have hall : ∀ k < 8, (0xFF#8).getLsbD k = true := by decide
  exact hall _ h

theorem freeCount_allUsed : freeCount allUsed = 0 := by
  simp [freeCount,freeSet]

theorem foldl_total_irrelevant (fs : List ℕ) (p q : Pmm) (hb : p.bitmap = q.bitmap) (hf : p.free = q.free) :
    (fs.foldl (fun p f => { releaseFrame p f with total := (p.total+1) % 2^32 }) p).bitmap =
      (fs.foldl releaseFrame q).bitmap ∧
    (fs.foldl (fun p f => { releaseFrame p f with total := (p.total+1) % 2^32 }) p).free =
      (fs.foldl releaseFrame q).free := by
  induction fs generalizing p q with
  | nil => exact ⟨hb,hf⟩
  | cons f fs ih =>
    rw [List.foldl_cons,List.foldl_cons]
    apply ih
    · simp [releaseFrame,pmmSetFree,hb]
    · simp [releaseFrame,hf]

theorem isUsed_releaseFrames_of_notMem {fs : List ℕ} {p : Pmm} {g : ℕ} (hg : g ∉ fs) :
    pmmIsUsed (fs.foldl releaseFrame p) g = pmmIsUsed p g := by
  induction fs generalizing p with
  | nil => rfl
  | cons f fs ih =>
    rw [List.mem_cons,not_or] at hg
    rw [List.foldl_cons,ih hg.2]
    simp [hg.1]

theorem isUsed_releaseFrames_of_mem {fs : List ℕ} {p : Pmm} {g : ℕ} (hg : g ∈ fs) :
    pmmIsUsed (fs.foldl releaseFrame p) g = false := by
  induction fs generalizing p with
  | nil => cases hg
  | cons f fs ih =>
    rw [List.foldl_cons]
    by_cases hm : g ∈ fs
    · exact ih hm
    · have hgf : g = f := (List.mem_cons.mp hg).resolve_right hm
      rw [isUsed_releaseFrames_of_notMem hm]
      simp [hgf]

/-- The fixed layout: a list of frames above 1 MB is released one by one. -/
theorem releaseAll_sound {fs : List ℕ} (hmem : ∀ f ∈ fs, lowFrames ≤ f ∧ f < totalFrames)
    (hlen : fs.length ≤ totalFrames) (t : ℕ) :
    Sound { fs.foldl (fun p f => { releaseFrame p f with total := (p.total+1) % 2^32 }) allUsed with
      total := t } := by
  have hmax : totalFrames = 8192 := rfl
  have h := releaseFrames_counts fs (fun f hf => (hmem f hf).2) (p := allUsed) (b := 0)
    (by rw [freeCount_allUsed]; exact Nat.zero_le _) le_rfl (by omega)
  obtain ⟨hb,hf⟩ := foldl_total_irrelevant fs allUsed allUsed rfl rfl
  generalize fs.foldl (fun p f => { releaseFrame p f with total := (p.total+1) % 2^32 }) allUsed = p at hb hf
  have hbit : ∀ g, pmmIsUsed { p with total := t } g = pmmIsUsed (fs.foldl releaseFrame allUsed) g := by
    intro g
    simp only [pmmIsUsed,hb]
  have hcount : freeCount { p with total := t } = freeCount (fs.foldl releaseFrame allUsed) := by
    rw [freeCount,freeSet_congr hbit,freeCount]
  have hfree : ({ p with total := t } : Pmm).free = (fs.foldl releaseFrame allUsed).free := hf
  dsimp only
  refine ⟨fun f hf' => ?_,by omega,by omega⟩
  have hnot : f ∉ fs := fun hm => by have := (hmem f hm).1; omega
  rw [hbit,isUsed_releaseFrames_of_notMem hnot,isUsed_allUsed]

/-- Whatever the BIOS reported, the allocator starts out sound. -/
theorem pmmInit_sound (mmap : BootMmap) : Sound (pmmInit mmap) := by
  have hmax : totalFrames = 8192 := rfl
  have hlow : lowFrames = 256 := rfl
  unfold pmmInit
  split
  · refine releaseAll_sound (fun f hf => ?_) ?_ _
    · rw [List.mem_range'_1] at hf
      omega
    · rw [List.length_range']
      omega
  · have hle := mmap.count_le
    have hcount := addEntries_counts mmap.entries (p := allUsed) (b := 0)
      (by rw [freeCount_allUsed]; exact Nat.zero_le _) le_rfl (by rw [hmax]; omega)
    generalize mmap.entries.foldl addEntry allUsed = q at hcount
    -- the final reservation covers exactly the frames below 1 MB
    have hrange : pmmReserveRange q 0 0x100000 = (List.range' 0 lowFrames).foldl reserveFrame q := by
      simp [pmmReserveRange,maxPhys,pageSize,totalFrames,lowFrames]
    obtain ⟨h1,h2,h3⟩ := reserveFrames_spec (List.range' 0 lowFrames) (p := q) (fun f hf => by
      rw [List.mem_range'_1] at hf
      omega) hcount.1
    rw [hrange]
    refine ⟨fun f hf => ?_,h1,?_⟩
    · have hm : f ∈ List.range' 0 lowFrames := by
        rw [List.mem_range'_1]
        omega
      rw [h3,decide_eq_true hm,Bool.true_or]
    · have := hcount.2
      rw [hmax] at this ⊢
      omega

/-- Without an E820 map every frame above 1 MB is free. -/
theorem freeSet_pmmInit_nil (mmap : BootMmap) (h : mmap.entries.length = 0) :
    freeSet (pmmInit mmap) = Finset.Ico lowFrames totalFrames := by
  obtain ⟨hb,_⟩ := foldl_total_irrelevant (List.range' lowFrames (totalFrames-lowFrames)) allUsed allUsed rfl rfl
  have hused : ∀ g, pmmIsUsed (pmmInit mmap) g =
      pmmIsUsed ((List.range' lowFrames (totalFrames-lowFrames)).foldl releaseFrame allUsed) g := by
    intro g
    unfold pmmInit
    rw [if_pos h]
    simp only [pmmIsUsed,hb]
  ext g
  have hle : lowFrames ≤ totalFrames := by decide
  rw [mem_freeSet,hused,Finset.mem_Ico]
  by_cases hg : g ∈ List.range' lowFrames (totalFrames-lowFrames)
  · rw [isUsed_releaseFrames_of_mem hg]
    rw [List.mem_range'_1] at hg
    exact ⟨fun _ => by omega,fun _ => ⟨by omega,rfl⟩⟩
  · rw [isUsed_releaseFrames_of_notMem hg,isUsed_allUsed]
    rw [List.mem_range'_1] at hg
    exact ⟨fun h => (nomatch h.2),fun h => absurd h (by omega)⟩

theorem freeCount_pmmInit_nil (mmap : BootMmap) (h : mmap.entries.length = 0) :
    freeCount (pmmInit mmap) = totalFrames - lowFrames := by
  rw [freeCount,freeSet_pmmInit_nil mmap h,Nat.card_Ico]

end VesperOS.FrameAllocator
