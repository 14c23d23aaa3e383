import VesperOS.Base.Ownership
import VesperOS.Memory.Paging

/-! # Ownership of frames by address spaces

A live directory holds its own frame, the page tables of its present PDEs 2 to
1023, and the frames those tables name. PDEs 0 and 1 lead to the two kernel
tables and hold nothing. The invariant says that these frames are all distinct,
in use and above 1 MB; it is proved for the primitive changes of memory first
(a fresh table linked in, a fresh frame entered, a fresh directory, a write that
misses every directory and table) and then for the functions of `paging.c`.
-/
namespace VesperOS.AddressSpaces
open ByteMemory FrameAllocator Paging Ownership

/-- What a frame is to a directory. -/
inductive Role where
  | dir
  | table (i : ℕ)
  | page (i j : ℕ)
  deriving DecidableEq

/-- Frame `f` plays a role for the directory in frame `d`; frames are numbers,
the address of frame `f` is `4096*f`. -/
def Holds (m : Mem) (d : ℕ) : Role → ℕ → Prop
  | .dir, f => f = d
  | .table i, f => 2 ≤ i ∧ i < 1024 ∧ isPresent (entry m (4096*d) i) ∧ f = entry m (4096*d) i/4096
  | .page i j, f => ∃ t, (2 ≤ i ∧ i < 1024 ∧ isPresent (entry m (4096*d) i) ∧ t = entry m (4096*d) i/4096) ∧
      j < 1024 ∧ isPresent (entry m (4096*t) j) ∧ f = entry m (4096*t) j/4096

theorem holds_page {m : Mem} {d i j f : ℕ} : Holds m d (.page i j) f ↔
    ∃ t, Holds m d (.table i) t ∧ j < 1024 ∧ isPresent (entry m (4096*t) j) ∧ f = entry m (4096*t) j/4096 :=
  Iff.rfl

theorem Holds.table_unique {m : Mem} {d i t t' : ℕ} (h : Holds m d (.table i) t)
    (h' : Holds m d (.table i) t') : t = t' := h.2.2.2.trans h'.2.2.2.symm

/-- The relation restricted to a list of live directories. -/
def LiveHolds (m : Mem) (live : List ℕ) (k : ℕ × Role) (f : ℕ) : Prop :=
  k.1 ∈ live ∧ Holds m k.1 k.2 f

/-- Each live directory's PDEs 0 and 1 are the kernel's, and every other entry
carries all three user flags. -/
structure WellFlagged (K : KernelLayout) (m : Mem) (d : ℕ) : Prop where
  kernel : ∀ t < 2, entry m (4096*d) t = K.pageTable t + 3
  tables : ∀ i t, Holds m d (.table i) t → entry m (4096*d) i = 4096*t + 7
  pages : ∀ i j t f, Holds m d (.table i) t → Holds m d (.page i j) f → entry m (4096*t) j = 4096*f + 7

/-- The invariant of all address spaces. -/
structure Separated (K : KernelLayout) (s : Machine) (live : List ℕ) : Prop where
  sound : Sound s.pmm
  nodup : live.Nodup
  owned : ∀ d ∈ live, ∀ r f, Holds s.mem d r f →
    lowFrames ≤ f ∧ f < totalFrames ∧ pmmIsUsed s.pmm f = true
  exclusive : Exclusive (LiveHolds s.mem live)
  kernelPd : ∀ t < 2, entry s.mem K.pageDirectory t = K.pageTable t + 3
  flagged : ∀ d ∈ live, WellFlagged K s.mem d

/-! ## Writes that miss directories and tables -/

/-- The frames a directory is read from are untouched. -/
def Untouched (m m' : Mem) (d : ℕ) : Prop :=
  SameFrame m m' d ∧ ∀ i t, Holds m d (.table i) t → SameFrame m m' t

theorem Untouched.table {m m' : Mem} {d : ℕ} (h : Untouched m m' d) {i t : ℕ} :
    Holds m' d (.table i) t ↔ Holds m d (.table i) t := by
  simp only [Holds]
  constructor
  · rintro ⟨h1,h2,h3,h4⟩
    rw [h.1.entry h2] at h3 h4
    exact ⟨h1,h2,h3,h4⟩
  · rintro ⟨h1,h2,h3,h4⟩
    rw [h.1.entry h2]
    exact ⟨h1,h2,h3,h4⟩

theorem Untouched.holds {m m' : Mem} {d : ℕ} (h : Untouched m m' d) (r : Role) (f : ℕ) :
    Holds m' d r f ↔ Holds m d r f := by
  cases r with
  | dir => exact Iff.rfl
  | table i => exact h.table
  | page i j =>
    rw [holds_page,holds_page]
    constructor
    · rintro ⟨t,ht,hj,hp,hf⟩
      rw [h.table] at ht
      rw [(h.2 i t ht).entry hj] at hp hf
      exact ⟨t,ht,hj,hp,hf⟩
    · rintro ⟨t,ht,hj,hp,hf⟩
      refine ⟨t,h.table.mpr ht,hj,?_,?_⟩
      · rw [(h.2 i t ht).entry hj]
        exact hp
      · rw [(h.2 i t ht).entry hj]
        exact hf

theorem Untouched.wellFlagged {K : KernelLayout} {m m' : Mem} {d : ℕ} (h : Untouched m m' d)
    (hw : WellFlagged K m d) : WellFlagged K m' d := by
  refine ⟨fun t ht => ?_,fun i t hi => ?_,fun i j t f hi hf => ?_⟩
  · rw [h.1.entry (by omega)]
    exact hw.kernel t ht
  · rw [h.holds] at hi
    rw [h.1.entry hi.2.1]
    exact hw.tables i t hi
  · rw [h.holds] at hi hf
    have hj : j < 1024 := by
      obtain ⟨_,_,hj,_⟩ := holds_page.mp hf
      exact hj
    rw [(h.2 i t hi).entry hj]
    exact hw.pages i j t f hi hf

/-! ## Frames that differ from what the live directories hold -/

section Facts
variable {K : KernelLayout} {s : Machine} {live : List ℕ} (h : Separated K s live)
include h

theorem Separated.used {d : ℕ} (hd : d ∈ live) {r : Role} {f : ℕ} (hf : Holds s.mem d r f) :
    pmmIsUsed s.pmm f = true := (h.owned d hd r f hf).2.2

theorem Separated.dir_used {d : ℕ} (hd : d ∈ live) : pmmIsUsed s.pmm d = true :=
  h.used hd (r := .dir) rfl

theorem Separated.not_low {d : ℕ} (hd : d ∈ live) {r : Role} {f n : ℕ} (hf : Holds s.mem d r f)
    (hn : n < lowFrames) : f ≠ n := by
  have := (h.owned d hd r f hf).1
  omega

theorem Separated.unique {d d' : ℕ} (hd : d ∈ live) (hd' : d' ∈ live) {r r' : Role} {f : ℕ}
    (hf : Holds s.mem d r f) (hf' : Holds s.mem d' r' f) : d = d' ∧ r = r' := by
  have he := @Separated.exclusive K s live h (d,r) (d',r') f ⟨hd,hf⟩ ⟨hd',hf'⟩
  exact ⟨congrArg Prod.fst he,congrArg Prod.snd he⟩

theorem Separated.table_ne_dir {d d' : ℕ} (hd : d ∈ live) (hd' : d' ∈ live) {i t : ℕ}
    (ht : Holds s.mem d (.table i) t) : t ≠ d' := by
  rintro rfl
  have hdir : Holds s.mem t .dir t := rfl
  cases (h.unique hd hd' ht hdir).2

theorem Separated.fresh_notHeld {q : Pmm} {f : ℕ} (ht : Takes s.pmm q f) :
    f ∉ held (LiveHolds s.mem live) := by
  rintro ⟨k,hk,hf⟩
  exact ht.ne (h.used hk hf) rfl

/-- Rebuild the invariant after a step that gave at most one fresh frame a role. -/
theorem Separated.extend {s' : Machine} {f₀ : ℕ} (d₀ : ℕ) (r₀ : Role) (ht : Takes s.pmm s'.pmm f₀)
    (hk : SameFrame s.mem s'.mem K.directoryFrame)
    (hnew : ∀ d ∈ live, ∀ r f, Holds s'.mem d r f → Holds s.mem d r f ∨ (d = d₀ ∧ r = r₀ ∧ f = f₀))
    (hflag : ∀ d ∈ live, WellFlagged K s'.mem d) : Separated K s' live := by
  refine ⟨ht.sound,h.nodup,fun d hd r f hf => ?_,?_,fun t ht' => ?_,hflag⟩
  · rcases hnew d hd r f hf with hf | ⟨_,_,rfl⟩
    · obtain ⟨h1,h2,h3⟩ := h.owned d hd r f hf
      exact ⟨h1,h2,ht.mono h3⟩
    · exact ⟨ht.low,ht.lt,ht.used⟩
  · refine h.exclusive.add_fresh (d₀,r₀) (h.fresh_notHeld ht) ?_
    rintro ⟨d,r⟩ f ⟨hd,hf⟩
    rcases hnew d hd r f hf with hf | ⟨rfl,rfl,rfl⟩
    · exact Or.inl ⟨hd,hf⟩
    · exact Or.inr ⟨rfl,rfl⟩
  · rw [← h.kernelPd t ht']
    exact hk.entry (by omega)

/-- A write that misses every directory, every table and the kernel directory
keeps the invariant, whatever it does to the user frames. -/
theorem Separated.untouched {m' : Mem} (hk : SameFrame s.mem m' K.directoryFrame)
    (hu : ∀ d ∈ live, Untouched s.mem m' d) : Separated K ⟨m',s.pmm⟩ live := by
  refine ⟨h.sound,h.nodup,fun d hd r f hf => ?_,?_,fun t ht => ?_,fun d hd => ?_⟩
  · exact h.owned d hd r f (((hu d hd).holds r f).mp hf)
  · exact h.exclusive.mono fun k f hf => ⟨hf.1,((hu k.1 hf.1).holds k.2 f).mp hf.2⟩
  · rw [← h.kernelPd t ht]
    exact hk.entry (by omega)
  · exact (hu d hd).wellFlagged (h.flagged d hd)

end Facts

/-! ## Linking a fresh page table into a directory -/

/-- Clear frame `t` and point entry `i` of the directory in frame `d` at it. -/
def linkTable (m : Mem) (d i t : ℕ) : Mem :=
  setEntry (memset m (4096*t) 0 4096) (4096*d) i (4096*t+7)

theorem sameFrame_linkTable (m : Mem) {d i t n : ℕ} (hi : i < 1024) (hd : n ≠ d) (ht : n ≠ t) :
    SameFrame m (linkTable m d i t) n :=
  (sameFrame_memset m 0 ht).trans (sameFrame_setEntry _ _ hi hd)

theorem entry_linkTable_same (m : Mem) {d i t : ℕ} (ht : t < totalFrames) :
    entry (linkTable m d i t) (4096*d) i = 4096*t+7 :=
  entry_setEntry_same _ _ _ _ (by simp only [totalFrames] at ht; omega)

theorem entry_linkTable_of_ne (m : Mem) {d i t k : ℕ} (hd : d ≠ t) (hk : k < 1024) (hne : i ≠ k) :
    entry (linkTable m d i t) (4096*d) k = entry m (4096*d) k := by
  rw [linkTable,entry_setEntry_of_ne _ _ (by omega) (by omega) (by omega)]
  exact (sameFrame_memset m 0 hd).entry hk

theorem entry_linkTable_fresh (m : Mem) {d i t j : ℕ} (hd : d ≠ t) (hi : i < 1024) (hj : j < 1024) :
    entry (linkTable m d i t) (4096*t) j = 0 := by
  rw [linkTable,(sameFrame_setEntry _ _ hi (Ne.symm hd)).entry hj]
  exact entry_memset_zero m hj

theorem isPresent_user (n : ℕ) : isPresent (4096*n+7) = true := by
  rw [isPresent_iff]
  omega

theorem div_user (n : ℕ) : (4096*n+7)/4096 = n := by omega

section Link
variable {K : KernelLayout} {s : Machine} {live : List ℕ} (h : Separated K s live)
include h

/-- A directory that is not the one changed reads as before. -/
theorem Separated.untouched_linkTable {d d' i t : ℕ} {q : Pmm} (hd : d ∈ live) (hd' : d' ∈ live)
    (hne : d' ≠ d) (hi : i < 1024) (ht : Takes s.pmm q t) :
    Untouched s.mem (linkTable s.mem d i t) d' := by
  refine ⟨sameFrame_linkTable _ hi hne (ht.ne (h.dir_used hd')),fun k u hu => ?_⟩
  exact sameFrame_linkTable _ hi (h.table_ne_dir hd' hd hu) (ht.ne (h.used hd' hu))

theorem Separated.table_linkTable {d i t : ℕ} {q : Pmm} (hd : d ∈ live) (hi : 2 ≤ i) (hi' : i < 1024)
    (habs : isPresent (entry s.mem (4096*d) i) = false) (ht : Takes s.pmm q t) (k u : ℕ) :
    Holds (linkTable s.mem d i t) d (.table k) u ↔ Holds s.mem d (.table k) u ∨ (k = i ∧ u = t) := by
  have hdt : d ≠ t := ht.ne (h.dir_used hd)
  by_cases hk : k = i
  · subst hk
    have hnot : ¬ Holds s.mem d (.table k) u := fun hh => by
      rw [hh.2.2.1] at habs
      cases habs
    rw [or_iff_right hnot]
    simp only [true_and,Holds,entry_linkTable_same s.mem ht.lt,isPresent_user,div_user]
    exact ⟨fun hh => hh.2.2,fun hh => ⟨hi,hi',hh⟩⟩
  · simp only [hk,false_and,or_false,Holds]
    by_cases hlt : k < 1024
    · rw [entry_linkTable_of_ne s.mem hdt hlt (Ne.symm hk)]
    · simp [hlt]

/-- The new table is empty, so it is the only change. -/
theorem Separated.holds_linkTable {d i t : ℕ} {q : Pmm} (hd : d ∈ live) (hi : 2 ≤ i) (hi' : i < 1024)
    (habs : isPresent (entry s.mem (4096*d) i) = false) (ht : Takes s.pmm q t) {d' : ℕ} (hd' : d' ∈ live)
    (r : Role) (f : ℕ) : Holds (linkTable s.mem d i t) d' r f ↔
      Holds s.mem d' r f ∨ (d' = d ∧ r = .table i ∧ f = t) := by
  by_cases hne : d' = d
  · subst hne
    have hdt : d' ≠ t := ht.ne (h.dir_used hd)
    cases r with
    | dir => simp [Holds]
    | table k => simpa using h.table_linkTable hd hi hi' habs ht k f
    | page k j =>
      simp only [holds_page,h.table_linkTable hd hi hi' habs ht,reduceCtorEq,false_and,and_false,or_false]
      constructor
      · rintro ⟨u,hu | ⟨rfl,rfl⟩,hj,hp,hf⟩
        · have hs := sameFrame_linkTable s.mem (d := d') (t := t) hi' (h.table_ne_dir hd hd hu)
            (ht.ne (h.used hd hu))
          rw [hs.entry hj] at hp hf
          exact ⟨u,hu,hj,hp,hf⟩
        · rw [entry_linkTable_fresh s.mem hdt hi' hj] at hp
          cases hp
      · rintro ⟨u,hu,hj,hp,hf⟩
        have hs := sameFrame_linkTable s.mem (d := d') (t := t) hi' (h.table_ne_dir hd hd hu)
          (ht.ne (h.used hd hu))
        refine ⟨u,Or.inl hu,hj,?_,?_⟩
        · rw [hs.entry hj]
          exact hp
        · rw [hs.entry hj]
          exact hf
  · rw [(h.untouched_linkTable hd hd' hne hi' ht).holds]
    simp [hne]

theorem Separated.wellFlagged_linkTable {d i t : ℕ} {q : Pmm} (hd : d ∈ live) (hi : 2 ≤ i) (hi' : i < 1024)
    (habs : isPresent (entry s.mem (4096*d) i) = false) (ht : Takes s.pmm q t) :
    WellFlagged K (linkTable s.mem d i t) d := by
  have hdt : d ≠ t := ht.ne (h.dir_used hd)
  have hw := h.flagged d hd
  have hold := fun r f => h.holds_linkTable hd hi hi' habs ht hd r f
  refine ⟨fun k hk => ?_,fun k u hu => ?_,fun k j u f hu hf => ?_⟩
  · rw [entry_linkTable_of_ne s.mem hdt (by omega) (by omega)]
    exact hw.kernel k hk
  · rcases (hold _ _).mp hu with hu | ⟨_,hk,rfl⟩
    · have hne : i ≠ k := by
        rintro rfl
        rw [hu.2.2.1] at habs
        cases habs
      rw [entry_linkTable_of_ne s.mem hdt hu.2.1 hne]
      exact hw.tables k u hu
    · cases hk
      exact entry_linkTable_same s.mem ht.lt
  · rcases (hold _ _).mp hf with hf | ⟨_,hk,_⟩
    · obtain ⟨u',hu',hj,_⟩ := holds_page.mp hf
      have he : u = u' := hu.table_unique ((hold _ _).mpr (Or.inl hu'))
      subst he
      rw [(sameFrame_linkTable s.mem hi' (h.table_ne_dir hd hd hu') (ht.ne (h.used hd hu'))).entry hj]
      exact hw.pages k j u f hu' hf
    · cases hk

theorem Separated.linkTable {d i t : ℕ} {q : Pmm} (hd : d ∈ live) (hi : 2 ≤ i) (hi' : i < 1024)
    (habs : isPresent (entry s.mem (4096*d) i) = false) (ht : Takes s.pmm q t) :
    Separated K ⟨linkTable s.mem d i t,q⟩ live := by
  have hlow := K.directory_low
  refine h.extend d (.table i) ht (sameFrame_linkTable _ hi' ?_ ?_) ?_ ?_
  · have := h.not_low hd (r := .dir) rfl hlow
    omega
  · have := ht.low
    omega
  · intro d' hd' r f hf
    exact (h.holds_linkTable hd hi hi' habs ht hd' r f).mp hf
  · intro d' hd'
    by_cases hne : d' = d
    · rw [hne]
      exact h.wellFlagged_linkTable hd hi hi' habs ht
    · exact (h.untouched_linkTable hd hd' hne hi' ht).wellFlagged (h.flagged d' hd')

end Link

/-! ## Entering a fresh frame in a page table -/

/-- Point entry `j` of the table in frame `u` at frame `g`. -/
def linkPage (m : Mem) (u j g : ℕ) : Mem := setEntry m (4096*u) j (4096*g+7)

theorem sameFrame_linkPage (m : Mem) {u j g n : ℕ} (hj : j < 1024) (hn : n ≠ u) :
    SameFrame m (linkPage m u j g) n := sameFrame_setEntry m _ hj hn

theorem entry_linkPage_same (m : Mem) {u j g : ℕ} (hg : g < totalFrames) :
    entry (linkPage m u j g) (4096*u) j = 4096*g+7 :=
  entry_setEntry_same _ _ _ _ (by simp only [totalFrames] at hg; omega)

theorem entry_linkPage_of_ne (m : Mem) {u j g k : ℕ} (hne : j ≠ k) :
    entry (linkPage m u j g) (4096*u) k = entry m (4096*u) k :=
  entry_setEntry_of_ne _ _ (by omega) (by omega) (by omega)

section Page
variable {K : KernelLayout} {s : Machine} {live : List ℕ} (h : Separated K s live)
include h

theorem Separated.untouched_linkPage {d d' i j u g : ℕ} (hd : d ∈ live) (hd' : d' ∈ live)
    (hne : d' ≠ d) (hu : Holds s.mem d (.table i) u) (hj : j < 1024) :
    Untouched s.mem (linkPage s.mem u j g) d' := by
  refine ⟨sameFrame_linkPage _ hj (h.table_ne_dir hd hd' hu).symm,fun k t ht => ?_⟩
  refine sameFrame_linkPage _ hj fun he => hne ?_
  exact (h.unique hd' hd (he ▸ ht) hu).1

theorem Separated.table_linkPage {d i j u g : ℕ} (hd : d ∈ live) (hu : Holds s.mem d (.table i) u)
    (hj : j < 1024) (k t : ℕ) :
    Holds (linkPage s.mem u j g) d (.table k) t ↔ Holds s.mem d (.table k) t := by
  have hs := sameFrame_linkPage s.mem (g := g) hj (h.table_ne_dir hd hd hu).symm
  simp only [Holds]
  by_cases hk : k < 1024
  · rw [hs.entry hk]
  · simp [hk]

/-- Exactly one page changes its frame, also when it had one before. -/
theorem Separated.holds_linkPage {d i j u g : ℕ} {q : Pmm} (hd : d ∈ live)
    (hu : Holds s.mem d (.table i) u) (hj : j < 1024) (hg : Takes s.pmm q g) {d' : ℕ} (hd' : d' ∈ live)
    (r : Role) (f : ℕ) : Holds (linkPage s.mem u j g) d' r f ↔
      if d' = d ∧ r = .page i j then f = g else Holds s.mem d' r f := by
  by_cases hne : d' = d
  · subst hne
    cases r with
    | dir => simp [Holds]
    | table k => simpa using h.table_linkPage hd hu hj k f
    | page k l =>
      simp only [holds_page,h.table_linkPage hd hu hj,true_and,Role.page.injEq]
      by_cases hk : k = i
      · subst hk
        by_cases hl : l = j
        · subst hl
          rw [if_pos ⟨rfl,rfl⟩]
          constructor
          · rintro ⟨t,ht,_,_,hf⟩
            rw [ht.table_unique hu,entry_linkPage_same s.mem hg.lt,div_user] at hf
            exact hf
          · intro hf
            refine ⟨u,hu,hj,?_,?_⟩
            · rw [entry_linkPage_same s.mem hg.lt]
              exact isPresent_user g
            · rw [entry_linkPage_same s.mem hg.lt,div_user]
              exact hf
        · rw [if_neg (fun hh => hl hh.2)]
          constructor
          · rintro ⟨t,ht,hl',hp,hf⟩
            rw [ht.table_unique hu,entry_linkPage_of_ne s.mem (Ne.symm hl)] at hp hf
            exact ⟨u,hu,hl',hp,hf⟩
          · rintro ⟨t,ht,hl',hp,hf⟩
            rw [ht.table_unique hu] at hp hf
            refine ⟨u,hu,hl',?_,?_⟩
            · rw [entry_linkPage_of_ne s.mem (Ne.symm hl)]
              exact hp
            · rw [entry_linkPage_of_ne s.mem (Ne.symm hl)]
              exact hf
      · rw [if_neg (fun hh => hk hh.1)]
        have hs : ∀ t, Holds s.mem d' (.table k) t → SameFrame s.mem (linkPage s.mem u j g) t := by
          intro t ht
          refine sameFrame_linkPage _ hj fun he => hk ?_
          have := (h.unique hd hd (he ▸ ht) hu).2
          injection this
        constructor
        · rintro ⟨t,ht,hl,hp,hf⟩
          rw [(hs t ht).entry hl] at hp hf
          exact ⟨t,ht,hl,hp,hf⟩
        · rintro ⟨t,ht,hl,hp,hf⟩
          refine ⟨t,ht,hl,?_,?_⟩
          · rw [(hs t ht).entry hl]
            exact hp
          · rw [(hs t ht).entry hl]
            exact hf
  · rw [(h.untouched_linkPage hd hd' hne hu hj).holds]
    simp [hne]

theorem Separated.wellFlagged_linkPage {d i j u g : ℕ} {q : Pmm} (hd : d ∈ live)
    (hu : Holds s.mem d (.table i) u) (hj : j < 1024) (hg : Takes s.pmm q g) :
    WellFlagged K (linkPage s.mem u j g) d := by
  have hw := h.flagged d hd
  have hs := sameFrame_linkPage s.mem (g := g) hj (h.table_ne_dir hd hd hu).symm
  refine ⟨fun k hk => ?_,fun k t ht => ?_,fun k l t f ht hf => ?_⟩
  · rw [hs.entry (by omega)]
    exact hw.kernel k hk
  · rw [h.table_linkPage hd hu hj] at ht
    rw [hs.entry ht.2.1]
    exact hw.tables k t ht
  · rw [h.table_linkPage hd hu hj] at ht
    rw [h.holds_linkPage hd hu hj hg hd] at hf
    by_cases hkl : Role.page k l = .page i j
    · rw [if_pos ⟨rfl,hkl⟩] at hf
      injection hkl with hk hl
      subst hk hl hf
      rw [ht.table_unique hu]
      exact entry_linkPage_same s.mem hg.lt
    · rw [if_neg (fun hh => hkl hh.2)] at hf
      obtain ⟨t',ht',hl,_⟩ := holds_page.mp hf
      by_cases htu : t = u
      · have hne : j ≠ l := by
          rintro rfl
          have hr := (h.unique hd hd (htu ▸ ht) hu).2
          injection hr with hk
          exact hkl (by rw [hk])
        rw [htu,entry_linkPage_of_ne s.mem hne,← htu]
        exact hw.pages k l t f ht hf
      · rw [(sameFrame_linkPage s.mem hj htu).entry hl]
        exact hw.pages k l t f ht hf

theorem Separated.linkPage {d i j u g : ℕ} {q : Pmm} (hd : d ∈ live) (hu : Holds s.mem d (.table i) u)
    (hj : j < 1024) (hg : Takes s.pmm q g) : Separated K ⟨linkPage s.mem u j g,q⟩ live := by
  refine h.extend d (.page i j) hg (sameFrame_linkPage _ hj ?_) ?_ ?_
  · have := h.not_low hd hu K.directory_low
    omega
  · intro d' hd' r f hf
    rw [h.holds_linkPage hd hu hj hg hd'] at hf
    split at hf
    · rename_i hc
      exact Or.inr ⟨hc.1,hc.2,hf⟩
    · exact Or.inl hf
  · intro d' hd'
    by_cases hne : d' = d
    · rw [hne]
      exact h.wellFlagged_linkPage hd hu hj hg
    · exact (h.untouched_linkPage hd hd' hne hu hj).wellFlagged (h.flagged d' hd')

/-- An entry of a kernel page table belongs to no live directory. -/
theorem Separated.untouched_kernelTable {d j g t : ℕ} (hd : d ∈ live) (hj : j < 1024) (ht : t < 2) :
    Untouched s.mem (AddressSpaces.linkPage s.mem (K.tablesFrame+t) j g) d := by
  have hlow : K.tablesFrame + t < lowFrames := by have := K.tables_low; omega
  exact ⟨sameFrame_linkPage _ hj (h.not_low hd (r := .dir) rfl hlow),
    fun i u hu => sameFrame_linkPage _ hj (h.not_low hd hu hlow)⟩

end Page

/-! ## A fresh directory -/

/-- Frame `d` cleared, with the kernel's first two PDEs. -/
def freshDir (K : KernelLayout) (m : Mem) (d : ℕ) : Mem :=
  setEntry (setEntry (memset m (4096*d) 0 4096) (4096*d) 0 (K.pageTable 0+3)) (4096*d) 1 (K.pageTable 1+3)

theorem sameFrame_freshDir (K : KernelLayout) (m : Mem) {d n : ℕ} (hn : n ≠ d) :
    SameFrame m (freshDir K m d) n :=
  ((sameFrame_memset m 0 hn).trans (sameFrame_setEntry _ _ (by omega) hn)).trans
    (sameFrame_setEntry _ _ (by omega) hn)

theorem entry_freshDir_kernel (K : KernelLayout) (m : Mem) {d t : ℕ} (ht : t < 2) :
    entry (freshDir K m d) (4096*d) t = K.pageTable t+3 := by
  have h0 := K.pageTable_lt (t := 0) (by omega)
  have h1 := K.pageTable_lt (t := 1) (by omega)
  obtain rfl | rfl : t = 0 ∨ t = 1 := by omega
  · rw [freshDir,entry_setEntry_of_ne _ _ (by omega) (by omega) (by omega),
      entry_setEntry_same _ _ _ _ h0]
  · rw [freshDir,entry_setEntry_same _ _ _ _ h1]

theorem entry_freshDir_user (K : KernelLayout) (m : Mem) {d i : ℕ} (hi : 2 ≤ i) (hi' : i < 1024) :
    entry (freshDir K m d) (4096*d) i = 0 := by
  rw [freshDir,entry_setEntry_of_ne _ _ (by omega) (by omega) (by omega),
    entry_setEntry_of_ne _ _ (by omega) (by omega) (by omega)]
  exact entry_memset_zero m hi'

theorem not_table_freshDir (K : KernelLayout) (m : Mem) (d i t : ℕ) :
    ¬ Holds (freshDir K m d) d (.table i) t := by
  rintro ⟨hi,hi',hp,_⟩
  rw [entry_freshDir_user K m hi hi'] at hp
  cases hp

/-- A fresh directory holds its own frame only. -/
theorem holds_freshDir (K : KernelLayout) (m : Mem) (d : ℕ) (r : Role) (f : ℕ) :
    Holds (freshDir K m d) d r f ↔ r = .dir ∧ f = d := by
  cases r with
  | dir => simp [Holds]
  | table i => simpa using not_table_freshDir K m d i f
  | page i j =>
    simp only [holds_page,reduceCtorEq,false_and,iff_false]
    rintro ⟨t,ht,_⟩
    exact not_table_freshDir K m d i t ht

theorem wellFlagged_freshDir (K : KernelLayout) (m : Mem) (d : ℕ) : WellFlagged K (freshDir K m d) d :=
  ⟨fun _ ht => entry_freshDir_kernel K m ht,fun i t ht => absurd ht (not_table_freshDir K m d i t),
    fun i _ t _ ht => absurd ht (not_table_freshDir K m d i t)⟩

section Create
variable {K : KernelLayout} {s : Machine} {live : List ℕ} (h : Separated K s live)
include h

theorem Separated.untouched_freshDir {d : ℕ} {q : Pmm} (ht : Takes s.pmm q d) {d' : ℕ} (hd' : d' ∈ live) :
    Untouched s.mem (freshDir K s.mem d) d' :=
  ⟨sameFrame_freshDir K _ (ht.ne (h.dir_used hd')),fun _ _ hu => sameFrame_freshDir K _ (ht.ne (h.used hd' hu))⟩

theorem Separated.freshDir {d : ℕ} {q : Pmm} (ht : Takes s.pmm q d) :
    Separated K ⟨freshDir K s.mem d,q⟩ (d :: live) := by
  have hnot : d ∉ live := fun hd => ht.ne (h.dir_used hd) rfl
  have hkd : K.directoryFrame ≠ d := by
    have h1 := K.directory_low
    have h2 := ht.low
    omega
  have hold : ∀ d' ∈ d :: live, ∀ r f, Holds (AddressSpaces.freshDir K s.mem d) d' r f →
      (d' ∈ live ∧ Holds s.mem d' r f) ∨ (d' = d ∧ r = .dir ∧ f = d) := by
    intro d' hd' r f hf
    rcases List.mem_cons.mp hd' with rfl | hd'
    · exact Or.inr ⟨rfl,(holds_freshDir K s.mem d' r f).mp hf⟩
    · exact Or.inl ⟨hd',((h.untouched_freshDir ht hd').holds r f).mp hf⟩
  refine ⟨ht.sound,List.nodup_cons.mpr ⟨hnot,h.nodup⟩,fun d' hd' r f hf => ?_,?_,fun t ht' => ?_,
    fun d' hd' => ?_⟩
  · rcases hold d' hd' r f hf with ⟨hd',hf⟩ | ⟨_,_,rfl⟩
    · obtain ⟨h1,h2,h3⟩ := h.owned d' hd' r f hf
      exact ⟨h1,h2,ht.mono h3⟩
    · exact ⟨ht.low,ht.lt,ht.used⟩
  · refine h.exclusive.add_fresh (d,.dir) (h.fresh_notHeld ht) ?_
    rintro ⟨d',r⟩ f ⟨hd',hf⟩
    rcases hold d' hd' r f hf with hf | ⟨rfl,rfl,rfl⟩
    · exact Or.inl hf
    · exact Or.inr ⟨rfl,rfl⟩
  · rw [← h.kernelPd t ht']
    exact (sameFrame_freshDir K s.mem hkd).entry (by omega)
  · rcases List.mem_cons.mp hd' with rfl | hd'
    · exact wellFlagged_freshDir K s.mem d'
    · exact (h.untouched_freshDir ht hd').wellFlagged (h.flagged d' hd')

/-! ## What the functions of `paging.c` do -/

theorem Separated.createPd_cases :
    (freeCount s.pmm = 0 ∧ pagingCreatePd K s = (0,s)) ∨
    ∃ d q, Takes s.pmm q d ∧ pagingCreatePd K s = (4096*d,⟨AddressSpaces.freshDir K s.mem d,q⟩) := by
  rcases allocFrame_cases h.sound with ⟨h0,he⟩ | ⟨d,q,he,ht⟩
  · exact Or.inl ⟨h0,by simp [pagingCreatePd,he]⟩
  · right
    refine ⟨d,q,ht,?_⟩
    have hlow := ht.low
    have hk := K.directory_low
    have hpos : 4096*d ≠ 0 := ht.addr_ne_zero
    have hkd : K.directoryFrame ≠ d := by omega
    have h0 : entry (memset s.mem (4096*d) 0 4096) K.pageDirectory 0 = K.pageTable 0+3 := by
      rw [← h.kernelPd 0 (by omega)]
      exact (sameFrame_memset s.mem 0 hkd).entry (by omega)
    have h1 : entry (setEntry (memset s.mem (4096*d) 0 4096) (4096*d) 0 (K.pageTable 0+3))
        K.pageDirectory 1 = K.pageTable 1+3 := by
      rw [← h.kernelPd 1 (by omega)]
      exact ((sameFrame_memset s.mem 0 hkd).trans (sameFrame_setEntry _ _ (by omega) hkd)).entry (by omega)
    simp only [pagingCreatePd,he,if_neg hpos,h0,h1,AddressSpaces.freshDir]

/-- A missing page table is added, or the memory is out of frames. -/
theorem Separated.ensureTable_cases {d i : ℕ} (hd : d ∈ live) :
    (isPresent (entry s.mem (4096*d) i) = true ∧ ensureTable (4096*d) i s = (true,s)) ∨
    (isPresent (entry s.mem (4096*d) i) = false ∧ 2 ≤ i ∧
      ((freeCount s.pmm = 0 ∧ ensureTable (4096*d) i s = (false,s)) ∨
        ∃ t q, Takes s.pmm q t ∧ ensureTable (4096*d) i s = (true,⟨AddressSpaces.linkTable s.mem d i t,q⟩))) := by
  cases hp : isPresent (entry s.mem (4096*d) i) with
  | true => exact Or.inl ⟨rfl,by simp [ensureTable,hp]⟩
  | false =>
    right
    have hi : 2 ≤ i := by
      by_contra hlt
      rw [(h.flagged d hd).kernel i (by omega)] at hp
      have hodd : isPresent (K.pageTable i+3) = true := by
        rw [isPresent_iff,KernelLayout.pageTable]
        omega
      rw [hp] at hodd
      cases hodd
    refine ⟨rfl,hi,?_⟩
    rcases allocFrame_cases h.sound with ⟨h0,he⟩ | ⟨t,q,he,ht⟩
    · exact Or.inl ⟨h0,by simp [ensureTable,hp,he]⟩
    · right
      refine ⟨t,q,ht,?_⟩
      have hpos : 4096*t ≠ 0 := ht.addr_ne_zero
      simp only [ensureTable,hp,Bool.false_eq_true,if_false,he,if_neg hpos,user_flags,
        AddressSpaces.linkTable]

/-- The page gets a fresh frame, or the memory is out of frames. -/
theorem Separated.enterFrame_cases {d i j : ℕ} :
    (freeCount s.pmm = 0 ∧ enterFrame (4096*d) i j s = (false,s)) ∨
    ∃ g q, Takes s.pmm q g ∧
      enterFrame (4096*d) i j s = (true,⟨AddressSpaces.linkPage s.mem (entry s.mem (4096*d) i/4096) j g,q⟩) := by
  rcases allocFrame_cases h.sound with ⟨h0,he⟩ | ⟨g,q,he,hg⟩
  · exact Or.inl ⟨h0,by simp [enterFrame,he]⟩
  · right
    refine ⟨g,q,hg,?_⟩
    have hpos : 4096*g ≠ 0 := hg.addr_ne_zero
    simp only [enterFrame,he,if_neg hpos,user_flags,pageBase_eq,AddressSpaces.linkPage]

end Create

/-! ## The steps of `paging_alloc_user_pages` -/

/-- The page table of region `i` is there, after at most one allocation. -/
def TableReady (d i : ℕ) (s s₁ : Machine) : Prop :=
  (isPresent (entry s.mem (4096*d) i) = true ∧ s₁ = s) ∨
  (isPresent (entry s.mem (4096*d) i) = false ∧ 2 ≤ i ∧
    ∃ t q, Takes s.pmm q t ∧ s₁ = ⟨linkTable s.mem d i t,q⟩)

/-- One successful iteration: the table made ready, then a fresh frame entered. -/
def PageMapped (d virt : ℕ) (s s' : Machine) : Prop :=
  ∃ s₁ g q, TableReady d (virt/4194304) s s₁ ∧ Takes s₁.pmm q g ∧
    s' = ⟨linkPage s₁.mem (entry s₁.mem (4096*d) (virt/4194304)/4096) (virt/4096 % 1024) g,q⟩

/-- A run of successful iterations. -/
inductive PagesMapped (d : ℕ) : List ℕ → Machine → Machine → Prop
  | nil (s : Machine) : PagesMapped d [] s s
  | cons {v : ℕ} {vs : List ℕ} {s s₁ s' : Machine} :
      PageMapped d v s s₁ → PagesMapped d vs s₁ s' → PagesMapped d (v :: vs) s s'

section Steps
variable {K : KernelLayout} {s : Machine} {live : List ℕ} (h : Separated K s live)
include h

theorem Separated.tableReady {d i : ℕ} {s₁ : Machine} (hd : d ∈ live) (hi : i < 1024)
    (hr : TableReady d i s s₁) : Separated K s₁ live ∧ isPresent (entry s₁.mem (4096*d) i) = true := by
  rcases hr with ⟨hp,rfl⟩ | ⟨hp,hi2,t,q,ht,rfl⟩
  · exact ⟨h,hp⟩
  · refine ⟨h.linkTable hd hi2 hi hp ht,?_⟩
    rw [entry_linkTable_same s.mem ht.lt]
    exact isPresent_user t

/-- A present PDE leads to a table the directory holds, or to a kernel table. -/
theorem Separated.present_cases {d i : ℕ} (hd : d ∈ live) (hi : i < 1024)
    (hp : isPresent (entry s.mem (4096*d) i) = true) :
    Holds s.mem d (.table i) (entry s.mem (4096*d) i/4096) ∨
    (i < 2 ∧ entry s.mem (4096*d) i/4096 = K.tablesFrame+i) := by
  by_cases h2 : 2 ≤ i
  · exact Or.inl ⟨h2,hi,hp,rfl⟩
  · right
    refine ⟨by omega,?_⟩
    rw [(h.flagged d hd).kernel i (by omega),KernelLayout.pageTable]
    omega

/-- Entering a fresh frame keeps the invariant, also in a kernel table. -/
theorem Separated.enter {d i j g : ℕ} {q : Pmm} (hd : d ∈ live) (hi : i < 1024) (hj : j < 1024)
    (hp : isPresent (entry s.mem (4096*d) i) = true) (hg : Takes s.pmm q g) :
    Separated K ⟨AddressSpaces.linkPage s.mem (entry s.mem (4096*d) i/4096) j g,q⟩ live := by
  rcases h.present_cases hd hi hp with hu | ⟨hi2,he⟩
  · exact h.linkPage hd hu hj hg
  · rw [he]
    have hu := fun d' hd' => h.untouched_kernelTable (g := g) (d := d') hd' hj hi2
    have hk : K.directoryFrame ≠ K.tablesFrame+i := by
      have := K.disjoint
      omega
    refine h.extend d .dir hg (sameFrame_linkPage _ hj hk) ?_ ?_
    · exact fun d' hd' r f hf => Or.inl (((hu d' hd').holds r f).mp hf)
    · exact fun d' hd' => (hu d' hd').wellFlagged (h.flagged d' hd')

theorem Separated.pageMapped {d v : ℕ} {s' : Machine} (hd : d ∈ live) (hv : v < 2^32)
    (hm : PageMapped d v s s') : Separated K s' live := by
  obtain ⟨s₁,g,q,hr,hg,rfl⟩ := hm
  obtain ⟨h₁,hp⟩ := h.tableReady hd (by omega) hr
  exact h₁.enter hd (by omega) (by omega) hp hg

/-- Inversion of one iteration of the loop. -/
theorem Separated.allocUserPage_cases {d v : ℕ} (hd : d ∈ live) (hv : v < 2^32) :
    (isPresent (entry s.mem (4096*d) (v/4194304)) = false ∧ freeCount s.pmm = 0 ∧
      allocUserPage (4096*d) v s = (false,s)) ∨
    (∃ s₁, TableReady d (v/4194304) s s₁ ∧ freeCount s₁.pmm = 0 ∧
      allocUserPage (4096*d) v s = (false,s₁)) ∨
    ∃ s', PageMapped d v s s' ∧ allocUserPage (4096*d) v s = (true,s') := by
  have hready : (isPresent (entry s.mem (4096*d) (v/4194304)) = false ∧ freeCount s.pmm = 0 ∧
      ensureTable (4096*d) (v/4194304) s = (false,s)) ∨
      ∃ s₁, TableReady d (v/4194304) s s₁ ∧ ensureTable (4096*d) (v/4194304) s = (true,s₁) := by
    rcases h.ensureTable_cases (i := v/4194304) hd with ⟨hp,he⟩ | ⟨hp,hi,⟨h0,he⟩ | ⟨t,q,ht,he⟩⟩
    · exact Or.inr ⟨s,Or.inl ⟨hp,rfl⟩,he⟩
    · exact Or.inl ⟨hp,h0,he⟩
    · exact Or.inr ⟨_,Or.inr ⟨hp,hi,t,q,ht,rfl⟩,he⟩
  rcases hready with ⟨hp,h0,he⟩ | ⟨s₁,hr,he⟩
  · exact Or.inl ⟨hp,h0,by simp [allocUserPage,he]⟩
  · right
    obtain ⟨h₁,hp⟩ := h.tableReady hd (by omega) hr
    rcases h₁.enterFrame_cases (d := d) (i := v/4194304) (j := v/4096 % 1024) with
      ⟨h0,hf⟩ | ⟨g,q,hg,hf⟩
    · exact Or.inl ⟨s₁,hr,h0,by simp [allocUserPage,he,hf]⟩
    · exact Or.inr ⟨_,⟨s₁,g,q,hr,hg,rfl⟩,by simp [allocUserPage,he,hf]⟩

end Steps

theorem PagesMapped.separated {K : KernelLayout} {live : List ℕ} {d : ℕ} {vs : List ℕ} {s s' : Machine}
    (hm : PagesMapped d vs s s') (h : Separated K s live) (hd : d ∈ live) (hvs : ∀ v ∈ vs, v < 2^32) :
    Separated K s' live := by
  induction hm with
  | nil => exact h
  | cons hv _ ih =>
    have h₁ := h.pageMapped hd (hvs _ List.mem_cons_self) hv
    exact ih h₁ fun w hw => hvs w (List.mem_cons_of_mem _ hw)

/-- `paging_alloc_user_pages` maps a prefix of its pages, and the whole list if
it reports success; on failure it may leave one more, empty, page table. -/
theorem Separated.allocUserPages_cases {K : KernelLayout} {live : List ℕ} {d : ℕ} (hd : d ∈ live)
    {vs : List ℕ} (hvs : ∀ v ∈ vs, v < 2^32) {s : Machine} (h : Separated K s live) :
    (∃ s', PagesMapped d vs s s' ∧ allocUserPages (4096*d) vs s = (true,s')) ∨
    ∃ ms v ws s₁ s₂, vs = ms ++ v :: ws ∧ PagesMapped d ms s s₁ ∧
      (s₂ = s₁ ∨ TableReady d (v/4194304) s₁ s₂) ∧ allocUserPages (4096*d) vs s = (false,s₂) := by
  induction vs generalizing s with
  | nil => exact Or.inl ⟨s,.nil s,rfl⟩
  | cons v vs ih =>
    have hv := hvs v List.mem_cons_self
    have hrest := fun w hw => hvs w (List.mem_cons_of_mem v hw)
    rcases h.allocUserPage_cases hd hv with ⟨_,_,he⟩ | ⟨s₁,hr,_,he⟩ | ⟨s₁,hm,he⟩
    · exact Or.inr ⟨[],v,vs,s,s,rfl,.nil s,Or.inl rfl,by simp [allocUserPages,he]⟩
    · exact Or.inr ⟨[],v,vs,s,s₁,rfl,.nil s,Or.inr hr,by simp [allocUserPages,he]⟩
    · rcases ih hrest (h.pageMapped hd hv hm) with ⟨s',hms,he'⟩ | ⟨ms,w,ws,s₂,s₃,rfl,hms,hlast,he'⟩
      · exact Or.inl ⟨s',.cons hm hms,by simp [allocUserPages,he,he']⟩
      · exact Or.inr ⟨v :: ms,w,ws,s₂,s₃,rfl,.cons hm hms,hlast,by simp [allocUserPages,he,he']⟩

theorem Separated.allocUserPages {K : KernelLayout} {live : List ℕ} {d : ℕ} (hd : d ∈ live)
    {vs : List ℕ} (hvs : ∀ v ∈ vs, v < 2^32) {s : Machine} (h : Separated K s live) :
    Separated K (allocUserPages (4096*d) vs s).2 live := by
  rcases h.allocUserPages_cases hd hvs with ⟨s',hm,he⟩ | ⟨ms,v,ws,s₁,s₂,rfl,hm,hlast,he⟩
  · rw [he]
    exact hm.separated h hd hvs
  · rw [he]
    have h₁ := hm.separated h hd fun w hw => hvs w (List.mem_append_left _ hw)
    rcases hlast with rfl | hr
    · exact h₁
    · have hv := hvs v (List.mem_append_right _ List.mem_cons_self)
      exact (h₁.tableReady hd (by omega) hr).1

end VesperOS.AddressSpaces
