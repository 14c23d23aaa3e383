import VesperOS.Memory.BootMap

/-! # Histories of the frame pool

Every sequence of `pmm_alloc_frame` and `pmm_free_frame` after `pmm_init` that
frees only addresses it holds. The frames such a history can hand out are the ones
`pmm_init` released above 1 MB, and the distance between the free counter and the
bitmap stays what `pmm_init` made it.
-/
namespace VesperOS.PoolHistory
open FrameAllocator BootMap

/-- The pool after some history, with the addresses the history still holds. -/
inductive Reached (mmap : BootMmap) : Pmm → Finset ℕ → Prop
  | init : Reached mmap (pmmInit mmap) ∅
  | alloc {p : Pmm} {A : Finset ℕ} : Reached mmap p A → (pmmAllocFrame p).1 ≠ 0 →
      Reached mmap (pmmAllocFrame p).2 (insert (pmmAllocFrame p).1 A)
  | exhausted {p : Pmm} {A : Finset ℕ} : Reached mmap p A → (pmmAllocFrame p).1 = 0 →
      Reached mmap (pmmAllocFrame p).2 A
  | free {p : Pmm} {A : Finset ℕ} {a : ℕ} : Reached mmap p A → a ∈ A →
      Reached mmap (pmmFreeFrame p a) (A.erase a)

/-- What a history keeps, relative to the pool `q` it started from. -/
structure Kept (q p : Pmm) (A : Finset ℕ) : Prop where
  sound : Sound p
  within : ∀ f, pmmIsUsed p f = false → pmmIsUsed q f = false
  held : ∀ a ∈ A, ∃ f, a = 4096*f ∧ lowFrames ≤ f ∧ f < totalFrames ∧
    pmmIsUsed p f = true ∧ pmmIsUsed q f = false
  surplus_eq : surplus p = surplus q
  total_eq : p.total = q.total

variable {q p : Pmm} {A : Finset ℕ} {a : ℕ}

theorem Kept.refl (h : Sound q) : Kept q q ∅ :=
  ⟨h,fun _ hf => hf,fun _ ha => absurd ha (Finset.notMem_empty _),rfl,rfl⟩

theorem allocFrame_total (p : Pmm) : (pmmAllocFrame p).2.total = p.total := by
  unfold pmmAllocFrame
  split <;> rfl

theorem freeFrame_total (p : Pmm) (a : ℕ) : (pmmFreeFrame p a).total = p.total := by
  unfold pmmFreeFrame
  dsimp only
  split
  · rfl
  · split <;> rfl

/-- A successful allocation on a sound pool. -/
theorem alloc_takes (hs : Sound p) (h : (pmmAllocFrame p).1 ≠ 0) :
    ∃ f, (pmmAllocFrame p).1 = 4096*f ∧ Takes p (pmmAllocFrame p).2 f := by
  rcases allocFrame_cases hs with ⟨_,he⟩ | ⟨f,r,he,ht⟩
  · rw [he] at h
    exact absurd rfl h
  · rw [he]
    exact ⟨f,rfl,ht⟩

theorem alloc_exhausted (hs : Sound p) (h : (pmmAllocFrame p).1 = 0) :
    freeCount p = 0 ∧ (pmmAllocFrame p).2 = p := by
  rcases allocFrame_cases hs with ⟨hc,he⟩ | ⟨f,r,he,ht⟩
  · rw [he]
    exact ⟨hc,rfl⟩
  · rw [he] at h
    have hlow := ht.low
    unfold lowFrames at hlow
    dsimp only at h
    omega

theorem Kept.alloc (hk : Kept q p A) (h : (pmmAllocFrame p).1 ≠ 0) :
    Kept q (pmmAllocFrame p).2 (insert (pmmAllocFrame p).1 A) := by
  obtain ⟨f,hf,ht⟩ := alloc_takes hk.sound h
  constructor
  · exact ht.sound
  · intro g hg
    rw [ht.bits,Bool.or_eq_false_iff] at hg
    exact hk.within g hg.2
  · intro b hb
    rcases Finset.mem_insert.mp hb with hbe | hb
    · rw [hbe]
      exact ⟨f,hf,ht.low,ht.lt,ht.used,hk.within f ht.unused⟩
    · obtain ⟨g,h1,h2,h3,h4,h5⟩ := hk.held b hb
      exact ⟨g,h1,h2,h3,ht.mono h4,h5⟩
  · rw [ht.surplus_eq,hk.surplus_eq]
  · rw [allocFrame_total,hk.total_eq]

theorem Kept.free (hk : Kept q p A) (ha : a ∈ A) : Kept q (pmmFreeFrame p a) (A.erase a) := by
  obtain ⟨f,rfl,hlow,hlt,hused,hq⟩ := hk.held a ha
  have hdiv : 4096*f/pageSize = f := Nat.mul_div_cancel_left f (by decide)
  obtain ⟨hsound,hsurplus⟩ := freeFrame_sound hk.sound (a := 4096*f) (by rw [hdiv]; exact hlow)
  constructor
  · exact hsound
  · intro g hg
    rw [isUsed_freeFrame,hdiv] at hg
    by_cases hgf : g = f
    · rw [hgf]
      exact hq
    · rw [if_neg (fun hc => hgf hc.1)] at hg
      exact hk.within g hg
  · intro b hb
    obtain ⟨hne,hb⟩ := Finset.mem_erase.mp hb
    obtain ⟨g,rfl,h2,h3,h4,h5⟩ := hk.held b hb
    refine ⟨g,rfl,h2,h3,?_,h5⟩
    rw [isUsed_freeFrame,hdiv,if_neg (fun hc => hne (by rw [hc.1])),h4]
  · rw [hsurplus,hk.surplus_eq]
  · rw [freeFrame_total,hk.total_eq]

theorem Reached.kept {mmap : BootMmap} (h : Reached mmap p A) : Kept (pmmInit mmap) p A := by
  induction h with
  | init => exact Kept.refl (pmmInit_sound mmap)
  | alloc _ hne ih => exact ih.alloc hne
  | exhausted _ hz ih =>
    rw [(alloc_exhausted ih.sound hz).2]
    exact ih
  | free _ ha ih => exact ih.free ha

theorem Kept.freeCount_le (hk : Kept q p A) : freeCount p ≤ freeCount q := by
  apply Finset.card_le_card
  intro f hf
  rw [mem_freeSet] at hf ⊢
  exact ⟨hf.1,hk.within f hf.2⟩

/-- A frame that is free now is handed out by some continuation of the history. -/
theorem Reached.hands_out {mmap : BootMmap} {f : ℕ} (h : Reached mmap p A) (hlt : f < totalFrames)
    (hf : pmmIsUsed p f = false) : ∃ p' A', Reached mmap p' A' ∧ (pmmAllocFrame p').1 = 4096*f ∧ f ≠ 0 := by
  -- each allocation of another frame leaves one free frame less
  generalize hn : freeCount p = n
  induction n generalizing p A with
  | zero =>
    rw [freeCount,Finset.card_eq_zero] at hn
    have hmem : f ∈ freeSet p := mem_freeSet.mpr ⟨hlt,hf⟩
    rw [hn] at hmem
    cases hmem
  | succ n ih =>
    have hs := h.kept.sound
    have hne : (pmmAllocFrame p).1 ≠ 0 := fun hz => by
      have := (alloc_exhausted hs hz).1
      omega
    obtain ⟨g,hg,ht⟩ := alloc_takes hs hne
    by_cases hgf : f = g
    · refine ⟨p,A,h,by rw [hg,hgf],?_⟩
      rintro rfl
      exact hne (by rw [hg,← hgf])
    · have hcount := ht.count
      apply ih (h.alloc hne) _ (by omega)
      rw [ht.bits,hf,decide_eq_false hgf]
      rfl

/-! ## What an allocation returns -/

/-- In every history an address that is returned is page aligned, lies between 1 MB
and 32 MB, is not held already and belongs to a usable entry of the map; the call
fails only when every bit is set. -/
theorem allocFrame_sound {mmap : BootMmap} (h : Reached mmap p A) :
    ((pmmAllocFrame p).1 ≠ 0 → (pmmAllocFrame p).1 % 4096 = 0 ∧ 0x100000 ≤ (pmmAllocFrame p).1 ∧
      (pmmAllocFrame p).1 < 0x2000000 ∧ (pmmAllocFrame p).1 ∉ A ∧
      (mmap.entries ≠ [] → ∃ e ∈ mmap.entries, e.type = 1 ∧ e.base.toNat ≤ (pmmAllocFrame p).1 ∧
        (pmmAllocFrame p).1 + 4096 ≤ e.base.toNat + e.length.toNat)) ∧
    ((pmmAllocFrame p).1 = 0 → ∀ f < totalFrames, pmmIsUsed p f = true) := by
  have hk := h.kept
  constructor
  · intro hne
    obtain ⟨f,hf,ht⟩ := alloc_takes hk.sound hne
    have hlow := ht.low
    have hlt := ht.lt
    unfold lowFrames at hlow
    unfold totalFrames at hlt
    rw [hf]
    refine ⟨by omega,by omega,by omega,?_,?_⟩
    · intro hmem
      obtain ⟨g,hg,_,_,hused,_⟩ := hk.held _ hmem
      exact ht.ne hused (by omega)
    · intro hentries
      have hrel := ((init_free_iff hentries f).mp (hk.within f ht.unused)).2
      obtain ⟨e,he,hfe⟩ := List.mem_flatMap.mp hrel
      obtain ⟨h1,h2,h3⟩ := entryFrames_inside hfe
      exact ⟨e,he,h1,h2,h3⟩
  · intro hz f hf
    have hc := (alloc_exhausted hk.sound hz).1
    rw [freeCount,Finset.card_eq_zero] at hc
    by_contra hn
    have hmem : f ∈ freeSet p := mem_freeSet.mpr ⟨hf,by simpa using hn⟩
    rw [hc] at hmem
    cases hmem

/-- One usable frame at 1 MB. -/
def oneFrame : BootMmap := ⟨[⟨0x100000,0x1000,1⟩],by decide⟩

theorem allocFrame_sound_oneFrame : ∃ p A, Reached oneFrame p A ∧ (pmmAllocFrame p).1 = 0x100000 ∧ 0x100000 ∉ A := by
  have hrel : 256 ∈ releasedFrames oneFrame := by decide
  have hfree := (init_free_iff (by decide) 256).mpr ⟨by decide,hrel⟩
  obtain ⟨p,A,h,ha,_⟩ := Reached.init.hands_out (mem_releasedFrames_lt hrel) hfree
  have hs := (allocFrame_sound h).1 (by rw [ha]; decide)
  rw [ha] at hs
  exact ⟨p,A,h,ha,hs.2.2.2.1⟩

/-! ## The statistics -/

/-- The two counters agree with the bitmap and with each other. -/
def Exact (p : Pmm) : Prop := p.free = freeCount p ∧ p.free ≤ p.total ∧ p.total ≤ totalFrames

/-- The page ranges of the usable entries do not overlap, and what the entries
whose rounded end lies below their rounded start subtract from `pmm_total` is at most
the number of released frames that the first megabyte takes back. -/
def Countable (mmap : BootMmap) : Prop :=
  mmap.entries.Pairwise (fun e e' => List.Disjoint (entryFrames e) (entryFrames e')) ∧
    (mmap.entries.map deficit).sum ≤ ((releasedFrames mmap).filter (fun f => f < lowFrames)).length

theorem nodup_released_iff (mmap : BootMmap) : (releasedFrames mmap).Nodup ↔
    mmap.entries.Pairwise (fun e e' => List.Disjoint (entryFrames e) (entryFrames e')) := by
  unfold releasedFrames
  rw [List.nodup_flatMap]
  exact ⟨fun h => h.2,fun h => ⟨fun e _ => nodup_entryFrames e,h⟩⟩

/-- The counters stay exact when they start exact. -/
theorem Kept.exact (hk : Kept q p A) (hq : Exact q) : Exact p := by
  have hs := hk.surplus_eq
  have hc := hk.sound.counted
  have hle := hk.freeCount_le
  have ht := hk.total_eq
  obtain ⟨h1,h2,h3⟩ := hq
  unfold surplus at hs
  refine ⟨by omega,by omega,by omega⟩

theorem init_exact_iff {mmap : BootMmap} (h : mmap.entries ≠ []) : Exact (pmmInit mmap) ↔ Countable mmap := by
  have hsurplus := init_surplus h
  obtain ⟨hlt,htotal⟩ := init_total h
  have hdef := sum_deficit_le mmap
  have hc := (pmmInit_sound mmap).counted
  unfold surplus at hsurplus
  constructor
  · rintro ⟨h1,h2,h3⟩
    have hcard : (releasedFrames mmap).toFinset.card = (releasedFrames mmap).length := by omega
    have hn : (releasedFrames mmap).Nodup := Multiset.toFinset_card_eq_card_iff_nodup.mp hcard
    have hcount := init_freeCount h hn
    have hlen := nodup_length_le hn
    refine ⟨(nodup_released_iff mmap).mp hn,?_⟩
    unfold totalFrames at *
    omega
  · rintro ⟨hd,hsum⟩
    have hn := (nodup_released_iff mmap).mpr hd
    have hcard := List.toFinset_card_of_nodup hn
    have hcount := init_freeCount h hn
    have hlen := nodup_length_le hn
    unfold totalFrames at hlen hdef
    refine ⟨by omega,by omega,?_⟩
    unfold totalFrames
    omega

/-- The statistics are exact in every history of a map precisely when the map is
empty or its page ranges can be counted entry by entry. -/
theorem statistics_exact_iff (mmap : BootMmap) :
    (∀ p A, Reached mmap p A → Exact p) ↔ mmap.entries = [] ∨ Countable mmap := by
  have hinit : (∀ p A, Reached mmap p A → Exact p) ↔ Exact (pmmInit mmap) := by
    constructor
    · intro h
      exact h _ _ Reached.init
    · intro h p A hr
      exact hr.kept.exact h
  rw [hinit]
  by_cases he : mmap.entries = []
  · have hlen : mmap.entries.length = 0 := by rw [he]; rfl
    have hfree := fixed_free hlen
    have htotal := fixed_total hlen
    refine iff_of_true ⟨?_,?_,htotal.le⟩ (Or.inl he)
    · rw [hfree,freeCount_pmmInit_nil mmap hlen]
    · rw [hfree,htotal]
      exact Nat.sub_le _ _
  · rw [init_exact_iff he]
    exact ⟨Or.inr,fun h => h.resolve_left he⟩

/-- A usable entry of sixteen bytes that starts one byte behind a page boundary. -/
def sliver : BootMmap := ⟨[⟨0x1001,0x10,1⟩],by decide⟩

/-- The same usable frame reported twice. -/
def twice : BootMmap := ⟨[⟨0x100000,0x1000,1⟩,⟨0x100000,0x1000,1⟩],by decide⟩

theorem statistics_off : (Reached sliver (pmmInit sliver) ∅ ∧ totalFrames < (pmmInit sliver).total) ∧
    Reached twice (pmmInit twice) ∅ ∧ (pmmInit twice).free ≠ freeCount (pmmInit twice) := by
  constructor
  · refine ⟨Reached.init,?_⟩
    have hne : sliver.entries ≠ [] := by decide
    have ht := init_total hne
    have hd : (sliver.entries.map deficit).sum = 1 := by decide
    have hr : (releasedFrames sliver).length = 0 := by decide
    rw [hd,hr] at ht
    unfold totalFrames
    omega
  · refine ⟨Reached.init,?_⟩
    have hne : twice.entries ≠ [] := by decide
    have hs := init_surplus hne
    have hl : (releasedFrames twice).length = 2 := by decide
    have hc : (releasedFrames twice).toFinset.card = 1 := by decide
    rw [hl,hc,surplus] at hs
    omega

/-! ## Reserved ranges -/

/-- The frame at address `a` and the byte range of `e` have a byte in common. -/
def FrameMeets (a : ℕ) (e : E820Entry) : Prop :=
  ∃ x, a ≤ x ∧ x < a + 4096 ∧ e.base.toNat ≤ x ∧ x < e.base.toNat + e.length.toNat

/-- No frame of a history meets a range that is not usable precisely when no frame
above 1 MB in the page range of a usable entry does. -/
theorem reserved_kept_iff (mmap : BootMmap) (hne : mmap.entries ≠ []) :
    (∀ p A, Reached mmap p A → (pmmAllocFrame p).1 ≠ 0 →
      ∀ e ∈ mmap.entries, e.type ≠ 1 → ¬ FrameMeets (pmmAllocFrame p).1 e) ↔
    ∀ u ∈ mmap.entries, ∀ f ∈ entryFrames u, lowFrames ≤ f →
      ∀ e ∈ mmap.entries, e.type ≠ 1 → ¬ FrameMeets (4096*f) e := by
  constructor
  · intro h u hu f hf hlow e he ht hm
    have hrel : f ∈ releasedFrames mmap := List.mem_flatMap.mpr ⟨u,hu,hf⟩
    have hfree := (init_free_iff hne f).mpr ⟨hlow,hrel⟩
    obtain ⟨p,A,hr,ha,h0⟩ := Reached.init.hands_out (mem_releasedFrames_lt hrel) hfree
    apply h p A hr (by omega) e he ht
    rw [ha]
    exact hm
  · intro h p A hr ha e he ht hm
    obtain ⟨f,hf,htake⟩ := alloc_takes hr.kept.sound ha
    obtain ⟨hlow,hrel⟩ := (init_free_iff hne f).mp (hr.kept.within f htake.unused)
    obtain ⟨u,hu,hfu⟩ := List.mem_flatMap.mp hrel
    apply h u hu f hfu hlow e he ht
    rw [← hf]
    exact hm

/-- A frame that the map reports as usable and as reserved. -/
def contested : BootMmap := ⟨[⟨0x100000,0x1000,1⟩,⟨0x100000,0x1000,2⟩],by decide⟩

/-- Four usable pages and a reserved one behind them. -/
def besideReserved : BootMmap := ⟨[⟨0x100000,0x4000,1⟩,⟨0x104000,0x1000,2⟩],by decide⟩

theorem reserved_kept_iff_besideReserved : besideReserved.entries ≠ [] ∧ ∀ p A, Reached besideReserved p A →
    (pmmAllocFrame p).1 ≠ 0 → ∀ e ∈ besideReserved.entries, e.type ≠ 1 → ¬ FrameMeets (pmmAllocFrame p).1 e := by
  refine ⟨by decide,?_⟩
  apply (reserved_kept_iff besideReserved (by decide)).mpr
  have hbelow : ∀ u ∈ besideReserved.entries, ∀ f ∈ entryFrames u, 4096*f+4096 ≤ 0x104000 := by decide
  have hreserved : ∀ e ∈ besideReserved.entries, e.type ≠ 1 → 0x104000 ≤ e.base.toNat := by decide
  rintro u hu f hf - e he ht ⟨x,-,hx,hbase,-⟩
  have hend := hbelow u hu f hf
  have hstart := hreserved e he ht
  omega

theorem reserved_handed_out : ∃ p A, Reached contested p A ∧ (pmmAllocFrame p).1 ≠ 0 ∧
    ∃ e ∈ contested.entries, e.type ≠ 1 ∧ FrameMeets (pmmAllocFrame p).1 e := by
  have hrel : 256 ∈ releasedFrames contested := by decide
  have hfree := (init_free_iff (by decide) 256).mpr ⟨by decide,hrel⟩
  obtain ⟨p,A,h,ha,_⟩ := Reached.init.hands_out (mem_releasedFrames_lt hrel) hfree
  refine ⟨p,A,h,by rw [ha]; decide,⟨0x100000,0x1000,2⟩,by simp [contested],by decide,?_⟩
  rw [ha]
  exact ⟨0x100000,by decide⟩

end VesperOS.PoolHistory
