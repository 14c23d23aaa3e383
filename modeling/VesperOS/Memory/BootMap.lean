import VesperOS.Memory.FrameAllocator

/-! # The boot memory map

Which frames `pmm_init` releases for an E820 map, what it leaves in the two
counters, and what later histories of `pmm_alloc_frame` and `pmm_free_frame` can
return. The conditions on the map are stated about the page ranges of its entries
only.
-/
namespace VesperOS.BootMap
open FrameAllocator

/-! ## Page ranges of the entries -/

/-- Entries that the loop of `pmm_init` does not skip. -/
def Considered (e : E820Entry) : Prop := e.type = 1 ∧ e.base.toNat < maxPhys

instance (e : E820Entry) : Decidable (Considered e) := inferInstanceAs (Decidable (_ ∧ _))

def startFrame (e : E820Entry) : ℕ := (e.base.toNat+pageSize-1)/pageSize

def endFrame (e : E820Entry) : ℕ :=
  min (min ((e.base.toNat+e.length.toNat) % 2^64) maxPhys/pageSize) totalFrames

def entryFrames (e : E820Entry) : List ℕ :=
  if Considered e then List.range' (startFrame e) (endFrame e-startFrame e) else []

/-- By how much the rounded end of an entry lies below its rounded start. -/
def deficit (e : E820Entry) : ℕ := if Considered e then startFrame e-endFrame e else 0

/-- The frames released for the map, entry by entry. -/
def releasedFrames (mmap : BootMmap) : List ℕ := mmap.entries.flatMap entryFrames

theorem mem_entryFrames {e : E820Entry} {f : ℕ} :
    f ∈ entryFrames e ↔ Considered e ∧ startFrame e ≤ f ∧ f < endFrame e := by
  unfold entryFrames
  by_cases h : Considered e
  · rw [if_pos h,List.mem_range'_1]
    constructor
    · rintro ⟨h1,h2⟩
      exact ⟨h,h1,by omega⟩
    · rintro ⟨_,h1,h2⟩
      exact ⟨h1,by omega⟩
  · rw [if_neg h]
    exact iff_of_false (by simp) (fun hc => h hc.1)

theorem nodup_entryFrames (e : E820Entry) : (entryFrames e).Nodup := by
  unfold entryFrames
  split
  · exact List.nodup_range'
  · exact List.nodup_nil

theorem endFrame_le (e : E820Entry) : endFrame e ≤ totalFrames := Nat.min_le_right _ _

/-- A released frame lies inside the byte range of its entry. -/
theorem entryFrames_inside {e : E820Entry} {f : ℕ} (h : f ∈ entryFrames e) :
    e.type = 1 ∧ e.base.toNat ≤ pageSize*f ∧ pageSize*f + pageSize ≤ e.base.toNat + e.length.toNat := by
  obtain ⟨hc,h1,h2⟩ := mem_entryFrames.mp h
  have hl := e.length.toNat_lt
  refine ⟨hc.1,?_,?_⟩
  · unfold startFrame pageSize at *
    omega
  · unfold endFrame startFrame pageSize maxPhys totalFrames at *
    omega

/-! ## The E820 loop -/

/-- Equal bitmaps and equal free counters. -/
def SamePool (p q : Pmm) : Prop := p.bitmap = q.bitmap ∧ p.free = q.free

theorem SamePool.isUsed {p q : Pmm} (h : SamePool p q) (f : ℕ) : pmmIsUsed p f = pmmIsUsed q f := by
  unfold pmmIsUsed
  rw [h.1]

theorem SamePool.freeCount {p q : Pmm} (h : SamePool p q) : freeCount p = freeCount q := by
  unfold FrameAllocator.freeCount
  rw [freeSet_congr h.isUsed]

theorem SamePool.releaseFrames {p q : Pmm} (h : SamePool p q) (fs : List ℕ) :
    SamePool (fs.foldl releaseFrame p) (fs.foldl releaseFrame q) := by
  induction fs generalizing p q with
  | nil => exact h
  | cons f fs ih =>
    apply ih
    unfold SamePool releaseFrame pmmSetFree
    rw [h.1,h.2]
    exact ⟨rfl,rfl⟩

theorem addEntry_samePool (p : Pmm) (e : E820Entry) :
    SamePool (addEntry p e) ((entryFrames e).foldl releaseFrame p) := by
  unfold addEntry entryFrames
  by_cases ht : e.type = 1
  · by_cases hb : maxPhys ≤ e.base.toNat
    · rw [if_neg (by simp [ht]),if_pos hb,if_neg (fun hc => absurd hc.2 (by omega))]
      exact ⟨rfl,rfl⟩
    · rw [if_neg (by simp [ht]),if_neg hb,if_pos ⟨ht,by omega⟩]
      exact ⟨rfl,rfl⟩
  · rw [if_pos ht,if_neg (fun hc => ht hc.1)]
    exact ⟨rfl,rfl⟩

theorem addEntries_samePool (es : List E820Entry) {p q : Pmm} (h : SamePool p q) :
    SamePool (es.foldl addEntry p) ((es.flatMap entryFrames).foldl releaseFrame q) := by
  induction es generalizing p q with
  | nil => exact h
  | cons e es ih =>
    rw [List.foldl_cons,List.flatMap_cons,List.foldl_append]
    apply ih
    obtain ⟨h1,h2⟩ := addEntry_samePool p e
    obtain ⟨h3,h4⟩ := h.releaseFrames (entryFrames e)
    exact ⟨h1.trans h3,h2.trans h4⟩

theorem addEntry_total (p : Pmm) (e : E820Entry) (hp : p.total < 2^32) :
    (addEntry p e).total < 2^32 ∧
      ((addEntry p e).total + deficit e) % 2^32 = (p.total + (entryFrames e).length) % 2^32 := by
  have hend := endFrame_le e
  unfold addEntry deficit entryFrames
  by_cases ht : e.type = 1
  · by_cases hb : maxPhys ≤ e.base.toNat
    · have hn : ¬ Considered e := fun hc => absurd hc.2 (by omega)
      rw [if_neg (by simp [ht]),if_pos hb,if_neg hn,if_neg hn]
      exact ⟨hp,rfl⟩
    · have hc : Considered e := ⟨ht,by omega⟩
      have hstart : startFrame e ≤ totalFrames := by
        unfold startFrame pageSize maxPhys totalFrames at *
        omega
      have htot : ∀ (fs : List ℕ) (p : Pmm), (fs.foldl releaseFrame p).total = p.total := by
        intro fs
        induction fs with
        | nil => intro p; rfl
        | cons f fs ih => intro p; exact ih _
      rw [if_neg (by simp [ht]),if_neg hb,if_pos hc,if_pos hc,List.length_range']
      dsimp only
      rw [htot]
      change (p.total+endFrame e+(2^32-startFrame e)) % 2^32 < 2^32 ∧
        ((p.total+endFrame e+(2^32-startFrame e)) % 2^32 + (startFrame e-endFrame e)) % 2^32 =
          (p.total+(endFrame e-startFrame e)) % 2^32
      unfold totalFrames at hstart
      constructor <;> omega
  · have hn : ¬ Considered e := fun hc => ht hc.1
    rw [if_pos ht,if_neg hn,if_neg hn]
    exact ⟨hp,rfl⟩

theorem addEntries_total (es : List E820Entry) (p : Pmm) (hp : p.total < 2^32) :
    (es.foldl addEntry p).total < 2^32 ∧ ((es.foldl addEntry p).total + (es.map deficit).sum) % 2^32 =
      (p.total + (es.flatMap entryFrames).length) % 2^32 := by
  induction es generalizing p with
  | nil => exact ⟨hp,rfl⟩
  | cons e es ih =>
    obtain ⟨h1,h2⟩ := addEntry_total p e hp
    obtain ⟨h3,h4⟩ := ih (addEntry p e) h1
    rw [List.foldl_cons,List.map_cons,List.sum_cons,List.flatMap_cons,List.length_append]
    refine ⟨h3,?_⟩
    omega

/-! ## The pool after `pmm_init` -/

theorem mem_releasedFrames_lt {mmap : BootMmap} {f : ℕ} (h : f ∈ releasedFrames mmap) : f < totalFrames := by
  obtain ⟨e,_,hf⟩ := List.mem_flatMap.mp h
  exact lt_of_lt_of_le (mem_entryFrames.mp hf).2.2 (endFrame_le e)

theorem length_releasedFrames_le (mmap : BootMmap) : (releasedFrames mmap).length ≤ totalFrames*32 := by
  have hlen : ∀ es : List E820Entry, (es.flatMap entryFrames).length ≤ totalFrames*es.length := by
    intro es
    induction es with
    | nil => simp
    | cons e es ih =>
      have he : (entryFrames e).length ≤ totalFrames := by
        unfold entryFrames
        split
        · rw [List.length_range']
          exact (Nat.sub_le _ _).trans (endFrame_le e)
        · exact Nat.zero_le _
      rw [List.flatMap_cons,List.length_append,List.length_cons,Nat.mul_succ]
      omega
  exact (hlen mmap.entries).trans (Nat.mul_le_mul_left _ mmap.count_le)

/-- Frames released one after the other from a full pool. -/
theorem isUsed_released (fs : List ℕ) (g : ℕ) :
    pmmIsUsed (fs.foldl releaseFrame allUsed) g = false ↔ g ∈ fs := by
  constructor
  · intro h
    by_contra hn
    rw [isUsed_releaseFrames_of_notMem hn,isUsed_allUsed] at h
    cases h
  · exact isUsed_releaseFrames_of_mem

theorem free_released (fs : List ℕ) (h : fs.length < 2^32) : (fs.foldl releaseFrame allUsed).free = fs.length := by
  have hfold : ∀ (fs : List ℕ) (p : Pmm), p.free + fs.length < 2^32 →
      (fs.foldl releaseFrame p).free = p.free + fs.length := by
    intro fs
    induction fs with
    | nil => intro p _; rfl
    | cons f fs ih =>
      intro p hp
      rw [List.length_cons] at hp ⊢
      have hf : (releaseFrame p f).free = p.free + 1 := Nat.mod_eq_of_lt (by omega)
      rw [List.foldl_cons,ih _ (by rw [hf]; omega),hf]
      omega
  have h0 : allUsed.free = 0 := rfl
  rw [hfold fs allUsed (by omega),h0,Nat.zero_add]

theorem freeCount_released {fs : List ℕ} (h : ∀ f ∈ fs, f < totalFrames) :
    freeCount (fs.foldl releaseFrame allUsed) = fs.toFinset.card := by
  have hset : freeSet (fs.foldl releaseFrame allUsed) = fs.toFinset := by
    ext g
    rw [mem_freeSet,isUsed_released,List.mem_toFinset]
    exact ⟨fun hg => hg.2,fun hg => ⟨h g hg,hg⟩⟩
  rw [freeCount,hset]

theorem reserveFrames_surplus (fs : List ℕ) (hfs : ∀ f ∈ fs, f < totalFrames) {p : Pmm} (hc : freeCount p ≤ p.free) :
    surplus (fs.foldl reserveFrame p) = surplus p := by
  induction fs generalizing p with
  | nil => rfl
  | cons f fs ih =>
    have hf := hfs f List.mem_cons_self
    have hnext := (reserveFrame_spec hf hc).1
    rw [List.foldl_cons,ih (fun g hg => hfs g (List.mem_cons_of_mem _ hg)) hnext]
    unfold reserveFrame
    split
    · rfl
    · rename_i hu
      have hcount := freeCount_takeFrame hf (by simpa using hu)
      have hfree := takeFrame_free (p := p) f (by omega)
      unfold surplus
      omega

theorem reserveFrames_total (fs : List ℕ) (p : Pmm) : (fs.foldl reserveFrame p).total = p.total := by
  induction fs generalizing p with
  | nil => rfl
  | cons f fs ih =>
    rw [List.foldl_cons,ih]
    unfold reserveFrame
    split <;> rfl

section Init
variable {mmap : BootMmap} (h : mmap.entries ≠ [])
include h

theorem pmmInit_eq : pmmInit mmap = (List.range' 0 lowFrames).foldl reserveFrame (mmap.entries.foldl addEntry allUsed) := by
  unfold pmmInit
  rw [if_neg (fun hl => h (List.length_eq_zero_iff.mp hl))]
  simp [pmmReserveRange,maxPhys,pageSize,totalFrames,lowFrames]

omit h in
theorem low_lt : ∀ f ∈ List.range' 0 lowFrames, f < totalFrames := by
  intro f hf
  rw [List.mem_range'_1] at hf
  unfold lowFrames totalFrames at *
  omega

omit h in
theorem addEntries_pool (mmap : BootMmap) :
    SamePool (mmap.entries.foldl addEntry allUsed) ((releasedFrames mmap).foldl releaseFrame allUsed) :=
  addEntries_samePool mmap.entries ⟨rfl,rfl⟩

omit h in
theorem addEntries_counted (mmap : BootMmap) : (mmap.entries.foldl addEntry allUsed).free = (releasedFrames mmap).length ∧
    freeCount (mmap.entries.foldl addEntry allUsed) = (releasedFrames mmap).toFinset.card := by
  have hpool := addEntries_pool mmap
  have hlen := length_releasedFrames_le mmap
  constructor
  · rw [hpool.2,free_released _ (by unfold totalFrames at hlen; omega)]
  · rw [hpool.freeCount,freeCount_released fun f hf => mem_releasedFrames_lt hf]

omit h in
theorem addEntries_le (mmap : BootMmap) : freeCount (mmap.entries.foldl addEntry allUsed) ≤
    (mmap.entries.foldl addEntry allUsed).free := by
  obtain ⟨h1,h2⟩ := addEntries_counted mmap
  rw [h1,h2]
  exact List.toFinset_card_le _

theorem init_free_iff (g : ℕ) : pmmIsUsed (pmmInit mmap) g = false ↔ lowFrames ≤ g ∧ g ∈ releasedFrames mmap := by
  have hbits := (reserveFrames_spec (List.range' 0 lowFrames) low_lt (addEntries_le mmap)).2.2 g
  rw [pmmInit_eq h,hbits,Bool.or_eq_false_iff,decide_eq_false_iff_not,(addEntries_pool mmap).isUsed,isUsed_released,
    List.mem_range'_1]
  constructor
  · rintro ⟨h1,h2⟩
    exact ⟨by omega,h2⟩
  · rintro ⟨h1,h2⟩
    exact ⟨by omega,h2⟩

theorem init_surplus : surplus (pmmInit mmap) + (releasedFrames mmap).toFinset.card = (releasedFrames mmap).length := by
  obtain ⟨h1,h2⟩ := addEntries_counted mmap
  have hle := addEntries_le mmap
  rw [pmmInit_eq h,reserveFrames_surplus _ low_lt hle,surplus,h1,h2]
  rw [h1,h2] at hle
  omega

theorem init_total : (pmmInit mmap).total < 2^32 ∧
    ((pmmInit mmap).total + (mmap.entries.map deficit).sum) % 2^32 = (releasedFrames mmap).length % 2^32 := by
  rw [pmmInit_eq h,reserveFrames_total]
  have ht := addEntries_total mmap.entries allUsed (by decide)
  rw [show allUsed.total = 0 from rfl,Nat.zero_add] at ht
  exact ht

theorem init_freeSet : freeSet (pmmInit mmap) = ((releasedFrames mmap).filter (fun f => lowFrames ≤ f)).toFinset := by
  ext g
  rw [mem_freeSet,init_free_iff h,List.mem_toFinset,List.mem_filter,decide_eq_true_iff]
  constructor
  · rintro ⟨_,h1,h2⟩
    exact ⟨h2,h1⟩
  · rintro ⟨h1,h2⟩
    exact ⟨mem_releasedFrames_lt h1,h2,h1⟩

/-- Without repetitions every released frame above 1 MB counts once. -/
theorem init_freeCount (hn : (releasedFrames mmap).Nodup) : freeCount (pmmInit mmap) +
    ((releasedFrames mmap).filter (fun f => f < lowFrames)).length = (releasedFrames mmap).length := by
  have hsplit := List.length_eq_length_filter_add (l := releasedFrames mmap) (fun f => decide (lowFrames ≤ f))
  have hlow : (fun f => !decide (lowFrames ≤ f)) = (fun f => decide (f < lowFrames)) := by
    funext f
    rw [← decide_not]
    simp only [Nat.not_le]
  rw [hlow] at hsplit
  rw [freeCount,init_freeSet h,List.toFinset_card_of_nodup (hn.filter _)]
  exact hsplit.symm

end Init

theorem deficit_le (e : E820Entry) : deficit e ≤ totalFrames := by
  unfold deficit
  by_cases hc : Considered e
  · rw [if_pos hc]
    have hb := hc.2
    unfold startFrame pageSize totalFrames
    unfold maxPhys at hb
    omega
  · rw [if_neg hc]
    exact Nat.zero_le _

theorem sum_deficit_le (mmap : BootMmap) : (mmap.entries.map deficit).sum ≤ totalFrames*32 := by
  have hsum := List.sum_le_card_nsmul (mmap.entries.map deficit) totalFrames (by
    intro d hd
    obtain ⟨e,_,rfl⟩ := List.mem_map.mp hd
    exact deficit_le e)
  rw [List.length_map,smul_eq_mul,Nat.mul_comm] at hsum
  exact hsum.trans (Nat.mul_le_mul_left _ mmap.count_le)

theorem nodup_length_le {mmap : BootMmap} (hn : (releasedFrames mmap).Nodup) :
    (releasedFrames mmap).length ≤ totalFrames := by
  rw [← List.toFinset_card_of_nodup hn]
  have hsub : (releasedFrames mmap).toFinset ⊆ Finset.range totalFrames := by
    intro f hf
    exact Finset.mem_range.mpr (mem_releasedFrames_lt (List.mem_toFinset.mp hf))
  simpa using Finset.card_le_card hsub

theorem total_released (fs : List ℕ) (h : fs.length < 2^32) :
    (fs.foldl (fun p f => { releaseFrame p f with total := (p.total+1) % 2^32 }) allUsed).total = fs.length := by
  have hfold : ∀ (fs : List ℕ) (p : Pmm), p.total + fs.length < 2^32 →
      (fs.foldl (fun p f => { releaseFrame p f with total := (p.total+1) % 2^32 }) p).total = p.total + fs.length := by
    intro fs
    induction fs with
    | nil => intro p _; rfl
    | cons f fs ih =>
      intro p hp
      rw [List.length_cons] at hp ⊢
      rw [List.foldl_cons,ih _ (by dsimp only; omega)]
      dsimp only
      omega
  have h0 : allUsed.total = 0 := rfl
  rw [hfold fs allUsed (by omega),h0,Nat.zero_add]

section FixedLayout
variable {mmap : BootMmap} (h : mmap.entries.length = 0)
include h

-- the list of frames is generalised first: it is too long to be evaluated
theorem fixed_free : (pmmInit mmap).free = totalFrames-lowFrames := by
  have hr : (List.range' lowFrames (totalFrames-lowFrames)).length = totalFrames-lowFrames := List.length_range'
  have hlt : totalFrames-lowFrames < 2^32 := by decide
  unfold pmmInit
  rw [if_pos h]
  generalize List.range' lowFrames (totalFrames-lowFrames) = fs at hr
  have hfree := (foldl_total_irrelevant fs allUsed allUsed rfl rfl).2
  rw [free_released fs (hr ▸ hlt)] at hfree
  exact hfree.trans hr

theorem fixed_total : (pmmInit mmap).total = totalFrames := by
  have hr : (List.range' lowFrames (totalFrames-lowFrames)).length = totalFrames-lowFrames := List.length_range'
  have hlt : totalFrames-lowFrames < 2^32 := by decide
  have hsum : (totalFrames-lowFrames+lowFrames) % 2^32 = totalFrames := by decide
  unfold pmmInit
  rw [if_pos h]
  generalize List.range' lowFrames (totalFrames-lowFrames) = fs at hr
  have ht := (total_released fs (hr ▸ hlt)).trans hr
  exact (congrArg (fun t => (t+lowFrames) % 2^32) ht).trans hsum

end FixedLayout

end VesperOS.BootMap
