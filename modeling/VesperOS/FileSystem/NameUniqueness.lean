import VesperOS.FileSystem.FileCount

/-! # Unique names

No two active entries store the same name as long as no call writes a name of more
than 31 bytes whose first 31 bytes an active entry already stores. Such a call finds
no entry to overwrite and stores a second entry under the cut name.
-/
namespace VesperOS.NameUniqueness
open ByteMemory DiskProgram FaultPattern VesperFs DiskVolume Transfers DirectoryEdits StoredNames FaultyTransfers
  FaultyCalls FileCount

def UniqueNames (dir : Mem) : Prop := ∀ i < fsMaxFiles, ∀ j < fsMaxFiles, Active dir i → Active dir j →
  storedName dir i = storedName dir j → i = j

/-- The name is stored whole, or no active entry stores what remains of it. -/
def Storable (dir : Mem) (name : Bytes) : Prop :=
  name.length ≤ fsNameMax ∨ ∀ i < fsMaxFiles, Active dir i → storedName dir i ≠ name.take 31

/-- What the operations keep. -/
structure Distinct (N : ℕ) (d : Disk Sector) : Prop where
  magic : magicOk (d fsSuperLba) = true
  bound : highestEnd (dirOf d) ≤ N
  terminated : Terminated (dirOf d)
  unique : UniqueNames (dirOf d)

section Directory
variable {d : Disk Sector} {name data : Bytes} {slot : ℕ}

/-- No other entry stores the name that the new entry gets. -/
theorem others_differ (hterm : Terminated (dirOf d)) (hu : UniqueNames (dirOf d)) (hz : 0 ∉ name)
    (hs : Storable (dirOf d) name) (ht : (scanDir (dirOf d) name).target = some slot) :
    ∀ j < fsMaxFiles, j ≠ slot → Active (dirOf d) j → storedName (dirOf d) j ≠ name.take 31 := by
  intro j hj hne ha heq
  obtain ⟨hslot,⟨-,hm⟩ | ⟨-,-,hnone⟩⟩ := scanDir_slot ht
  · obtain ⟨has,hstored⟩ := (matches_iff_stored hterm hslot hz).mp hm
    have hlen : name.length ≤ 31 := by
      rw [← hstored]
      exact length_cString_lt (by decide) (hterm slot hslot has)
    rw [List.take_of_length_le hlen,← hstored] at heq
    exact hne (hu j hj slot hslot ha has heq)
  · rcases hs with hlen | hfree
    · rw [List.take_of_length_le (show name.length ≤ 31 from hlen)] at heq
      exact hnone j hj ((matches_iff_stored hterm hj hz).mpr ⟨ha,heq⟩)
    · exact hfree j hj ha heq

theorem uniqueNames_newDir (hu : UniqueNames (dirOf d)) (hz : 0 ∉ name)
    (hothers : ∀ j < fsMaxFiles, j ≠ slot → Active (dirOf d) j → storedName (dirOf d) j ≠ name.take 31) :
    UniqueNames (newDir d name data slot) := by
  have hsame : ∀ j, j ≠ slot → SameEntry (dirOf d) (newDir d name data slot) j := fun j hj => setEntry_sameEntry hj
  have hnew : storedName (newDir d name data slot) slot = name.take 31 := setEntry_stored hz
  have hslot : ∀ j < fsMaxFiles, Active (newDir d name data slot) j →
      storedName (newDir d name data slot) j = name.take 31 → j = slot := by
    intro j hj ha heq
    by_contra hne
    rw [SameEntry.storedName (hsame j hne)] at heq
    exact hothers j hj hne ((hsame j hne).active.mp ha) heq
  intro i hi j hj hai haj heq
  by_cases his : i = slot
  · subst his
    rw [hnew] at heq
    exact (hslot j hj haj heq.symm).symm
  · by_cases hjs : j = slot
    · subst hjs
      rw [hnew] at heq
      exact hslot i hi hai heq
    · rw [SameEntry.storedName (hsame i his),SameEntry.storedName (hsame j hjs)] at heq
      exact hu i hi j hj ((hsame i his).active.mp hai) ((hsame j hjs).active.mp haj) heq

theorem uniqueNames_erasedDir (hu : UniqueNames (dirOf d)) (k : ℕ) : UniqueNames (erasedDir d k) := by
  intro i hi j hj hai haj heq
  have hik : i ≠ k := by
    rintro rfl
    exact erasedDir_inactive d i hai
  have hjk : j ≠ k := by
    rintro rfl
    exact erasedDir_inactive d j haj
  rw [SameEntry.storedName (erasedDir_sameEntry d hik),SameEntry.storedName (erasedDir_sameEntry d hjk)] at heq
  exact hu i hi j hj ((erasedDir_sameEntry d hik).active.mp hai) ((erasedDir_sameEntry d hjk).active.mp haj) heq

theorem terminated_erasedDir (hterm : Terminated (dirOf d)) (k : ℕ) : Terminated (erasedDir d k) := by
  intro i hi ha
  have hik : i ≠ k := by
    rintro rfl
    exact erasedDir_inactive d i ha
  have hsame := erasedDir_sameEntry d hik
  rw [hsame _ (by omega) (by omega)]
  exact hterm i hi (hsame.active.mp ha)

/-- A longer name finds no entry, so it gets a second entry with the same stored name. -/
theorem not_uniqueNames_newDir (hterm : Terminated (dirOf d)) (hne : name ≠ []) (hz : 0 ∉ name)
    (hs : ¬ Storable (dirOf d) name) (ht : (scanDir (dirOf d) name).target = some slot) :
    ¬ UniqueNames (newDir d name data slot) := by
  obtain ⟨hlen,i,hi,ha,hstored⟩ : 31 < name.length ∧ ∃ i < fsMaxFiles, Active (dirOf d) i ∧
      storedName (dirOf d) i = name.take 31 := by
    unfold Storable fsNameMax at hs
    push Not at hs
    exact hs
  obtain ⟨hslot,⟨-,hm⟩ | ⟨-,hfree,-⟩⟩ := scanDir_slot ht
  · obtain ⟨has,heq⟩ := (matches_iff_stored hterm hslot hz).mp hm
    have hle : (storedName (dirOf d) slot).length ≤ 31 := length_cString_lt (by decide) (hterm slot hslot has)
    rw [heq] at hle
    omega
  · have his : i ≠ slot := by
      rintro rfl
      exact hfree ha
    have hsame : SameEntry (dirOf d) (newDir d name data slot) i := setEntry_sameEntry his
    intro hu
    apply his
    apply hu i hi slot hslot (hsame.active.mpr ha) (setEntry_active hne hz)
    rw [SameEntry.storedName hsame,hstored]
    exact (setEntry_stored hz).symm

end Directory

/-! ## The calls -/

/-- Exactly one active entry stores the name, as far as it is kept, and its content is `data`. -/
def OneEntry (d : Disk Sector) (name data : Bytes) : Prop := ∃ i < fsMaxFiles, Active (dirOf d) i ∧
  storedName (dirOf d) i = name.take 31 ∧ extent d (startLba (dirOf d) i) (fileSize (dirOf d) i) = data ∧
  ∀ j < fsMaxFiles, Active (dirOf d) j → storedName (dirOf d) j = name.take 31 → j = i

theorem Distinct.kept {N : ℕ} {d d' : Disk Sector} (h : Distinct N d) (hdir : dirOf d' = dirOf d)
    (hsuper : d' fsSuperLba = d fsSuperLba) : Distinct N d' := by
  constructor
  · rw [hsuper]
    exact h.magic
  · rw [hdir]
    exact h.bound
  · rw [hdir]
    exact h.terminated
  · rw [hdir]
    exact h.unique

section Calls
variable {N : ℕ} (hN : N ≤ 2^28) (hlba : fsDataLba ≤ N) {d : Disk Sector} {name data : Bytes}
include hN

theorem distinct_writeNew (h : Distinct N d) (hz : 0 ∉ name) (hs : Storable (dirOf d) name) :
    Distinct N (run (drive N) (fsWriteNew name data) d).2 := by
  obtain ⟨-,hdisk⟩ := faultyRun_noFaults (drive N) (fsWriteNew name data) 0 d
  rw [← hdisk]
  by_cases hw : ∃ slot, EntryWritten N (fun _ => false) d name data slot
  · obtain ⟨slot,hw⟩ := hw
    obtain ⟨hstored,-,hsuper⟩ := fsWriteNew_stored hN h.bound hw
    have hothers := others_differ h.terminated h.unique hz hs hw.target
    constructor
    · rw [hsuper]
      unfold newSuper
      split
      · split
        · exact h.magic
        · rw [magicOk_setNumFiles]
          exact h.magic
      · exact h.magic
    · rw [hstored.dir]
      exact highestEnd_newDir hN h.bound (payload_fits h.bound hw.payload)
    · rw [hstored.dir]
      exact setEntry_terminated h.terminated
    · rw [hstored.dir]
      exact uniqueNames_newDir h.unique hz hothers
  · have hkept := (fsWriteNew_kept hN h.bound (fun slot hslot => hw ⟨slot,hslot⟩)).1
    exact h.kept hkept.dir hkept.super

theorem distinct_delete (h : Distinct N d) : Distinct N (run (drive N) (fsDelete name) d).2 := by
  obtain ⟨-,hdisk⟩ := faultyRun_noFaults (drive N) (fsDelete name) 0 d
  rw [← hdisk]
  by_cases hw : ∃ i, EntryErased N (fun _ => false) d name i
  · obtain ⟨i,hw⟩ := hw
    obtain ⟨hdir,-,-,hsuper⟩ := fsDelete_erased hN hw
    constructor
    · rw [hsuper]
      split
      · rw [magicOk_setNumFiles]
        exact h.magic
      · exact h.magic
    · rw [hdir]
      exact highestEnd_erasedDir h.bound
    · rw [hdir]
      exact terminated_erasedDir h.terminated i
    · rw [hdir]
      exact uniqueNames_erasedDir h.unique i
  · have hkept := fsDelete_kept hN (fun i hi => hw ⟨i,hi⟩)
    exact h.kept hkept.1 hkept.2.2.1

/-- A write that returns 0 leaves one entry for its name. -/
theorem oneEntry_writeNew (h : Distinct N d) (hz : 0 ∉ name) (hs : Storable (dirOf d) name)
    (hlen : data.length + 511 < 2^32) (hr : (run (drive N) (fsWriteNew name data) d).1 = 0) :
    OneEntry (run (drive N) (fsWriteNew name data) d).2 name data := by
  have hafter := @distinct_writeNew _ hN _ _ data h hz hs
  obtain ⟨hresult,hdisk⟩ := faultyRun_noFaults (drive N) (fsWriteNew name data) 0 d
  rw [← hdisk] at hafter ⊢
  rw [← hresult] at hr
  obtain ⟨slot,hw,-⟩ := fsWriteNew_zero hN h.bound hr
  obtain ⟨hstored,-,-⟩ := fsWriteNew_stored hN h.bound hw
  have hslot := (scanDir_slot hw.target).1
  have hbound := h.bound
  have ha : Active (newDir d name data slot) slot := setEntry_active hw.name_ne hz
  have hname : storedName (newDir d name data slot) slot = name.take 31 := setEntry_stored hz
  have hstart : startLba (newDir d name data slot) slot = highestEnd (dirOf d) := setEntry_startLba (by omega)
  have hsize : fileSize (newDir d name data slot) slot = data.length := setEntry_fileSize (by omega)
  rw [← hstored.dir] at ha hname hstart hsize
  refine ⟨slot,hslot,ha,hname,?_,?_⟩
  · rw [hstart,hsize,extent_congr (d := withData d data) hlen]
    · exact extent_overwrite d _ hlen
    · intro x hx _
      exact hstored.data x (le_trans fsDataLba_le_highestEnd hx)
  · intro j hj haj heq
    exact hafter.unique j hj slot hslot haj ha (heq.trans hname.symm)

include hlba

theorem distinct_format (d : Disk Sector) : Distinct N (run (drive N) fsFormat d).2 := by
  obtain ⟨d',hrun,hd'⟩ := run_fsFormat hN hlba d
  have hnone : ∀ i, ¬ Active (dirOf d') i := by
    intro i
    rw [hd'.dir]
    exact not_active_blank i
  rw [hrun]
  dsimp only
  constructor
  · rw [hd'.super]
    exact magicOk_blankSuper
  · exact highestEnd_le_iff.mpr ⟨hlba,fun i _ ha => absurd ha (hnone i)⟩
  · exact fun i _ ha => absurd ha (hnone i)
  · exact fun i _ _ _ ha => absurd ha (hnone i)

end Calls

/-! ## Histories -/

/-- Disks reached from `fs_format` by calls with any names; `P` restricts the names written. -/
inductive Reached (N : ℕ) (P : Mem → Bytes → Prop) : Disk Sector → Prop
  | format (d : Disk Sector) : Reached N P (run (drive N) fsFormat d).2
  | writeNew {d : Disk Sector} (name data : Bytes) : Reached N P d → 0 ∉ name → P (dirOf d) name →
      Reached N P (run (drive N) (fsWriteNew name data) d).2
  | delete {d : Disk Sector} (name : Bytes) : Reached N P d → 0 ∉ name →
      Reached N P (run (drive N) (fsDelete name) d).2

theorem Reached.distinct {N : ℕ} (hN : N ≤ 2^28) (hlba : fsDataLba ≤ N) {d : Disk Sector}
    (h : Reached N Storable d) : Distinct N d := by
  induction h with
  | format d => exact distinct_format hN hlba d
  | writeNew name data _ hz hs ih => exact distinct_writeNew hN ih hz hs
  | delete name _ _ ih => exact distinct_delete hN ih

/-- Two writes of one name that return 0 leave one entry for it, with the second content. -/
def TwiceIsOnce (N : ℕ) (P : Mem → Bytes → Prop) (d : Disk Sector) : Prop :=
  ∀ name first second d₁ d₂, 0 ∉ name → second.length + 511 < 2^32 → P (dirOf d) name →
    run (drive N) (fsWriteNew name first) d = (0,d₁) → P (dirOf d₁) name →
    run (drive N) (fsWriteNew name second) d₁ = (0,d₂) → OneEntry d₂ name second

theorem names_stay_unique {N : ℕ} (hN : N ≤ 2^28) (hlba : fsDataLba ≤ N) {d : Disk Sector}
    (h : Reached N Storable d) : UniqueNames (dirOf d) ∧ TwiceIsOnce N Storable d := by
  have hd := h.distinct hN hlba
  refine ⟨hd.unique,?_⟩
  intro name first second d₁ d₂ hz hlen hs hr hs₁ hr₁
  have hd₁ := @distinct_writeNew _ hN _ _ first hd hz hs
  rw [hr] at hd₁
  have hone := oneEntry_writeNew hN hd₁ hz hs₁ hlen (by rw [hr₁])
  rw [hr₁] at hone
  exact hone

/-- The condition is needed: a write that does not meet it and returns 0 leaves two entries with one name. -/
theorem unique_lost {N : ℕ} (hN : N ≤ 2^28) {d : Disk Sector} (h : Distinct N d) {name data : Bytes} (hz : 0 ∉ name)
    (hs : ¬ Storable (dirOf d) name) (hr : (run (drive N) (fsWriteNew name data) d).1 = 0) :
    ¬ UniqueNames (dirOf (run (drive N) (fsWriteNew name data) d).2) := by
  obtain ⟨hresult,hdisk⟩ := faultyRun_noFaults (drive N) (fsWriteNew name data) 0 d
  rw [← hresult] at hr
  obtain ⟨slot,hw,-⟩ := fsWriteNew_zero hN h.bound hr
  rw [← hdisk,(fsWriteNew_stored hN h.bound hw).1.dir]
  exact not_uniqueNames_newDir h.terminated hw.name_ne hz hs hw.target

/-- The files `a` and `b`, the first one written twice. -/
theorem names_stay_unique_twoFiles : ∃ d, Reached 200 Storable d ∧ Active (dirOf d) 0 ∧ Active (dirOf d) 1 ∧
    UniqueNames (dirOf d) ∧ TwiceIsOnce 200 Storable d := by
  obtain ⟨d,hd⟩ : ∃ d, (run (drive 200) (fsWriteNew [0x61] [3]) (run (drive 200) (fsWriteNew [0x62] [2])
    (run (drive 200) (fsWriteNew [0x61] [1]) (run (drive 200) fsFormat fun _ _ => 0).2).2).2).2 = d := ⟨_,rfl⟩
  have hr : Reached 200 Storable d := hd ▸ .writeNew [0x61] [3] (.writeNew [0x62] [2] (.writeNew [0x61] [1]
    (.format fun _ _ => 0) (by decide) (Or.inl (by decide))) (by decide) (Or.inl (by decide))) (by decide) (Or.inl (by decide))
  have hactive : Active (dirOf d) 0 ∧ Active (dirOf d) 1 := by
    rw [← hd]
    decide +kernel
  exact ⟨d,hr,hactive.1,hactive.2,names_stay_unique (by decide) (by decide) hr⟩

/-- A name of 32 bytes. -/
def longName : Bytes := List.replicate 32 0x61

def longNameOnce : Disk Sector :=
  (run (drive 200) (fsWriteNew longName [1]) (run (drive 200) fsFormat (fun _ _ => 0)).2).2

/-- Writing it twice gives two active entries with the same stored name. -/
theorem long_name_duplicated : ∃ d, Reached 200 (fun _ _ => True) d ∧ ¬ UniqueNames (dirOf d) := by
  refine ⟨(run (drive 200) (fsWriteNew longName [2]) longNameOnce).2,?_,?_⟩
  · exact .writeNew _ _ (.writeNew _ _ (.format _) (by decide) trivial) (by decide) trivial
  · intro hu
    have hdup : Active (dirOf (run (drive 200) (fsWriteNew longName [2]) longNameOnce).2) 0 ∧
        Active (dirOf (run (drive 200) (fsWriteNew longName [2]) longNameOnce).2) 1 ∧
        storedName (dirOf (run (drive 200) (fsWriteNew longName [2]) longNameOnce).2) 0 =
          storedName (dirOf (run (drive 200) (fsWriteNew longName [2]) longNameOnce).2) 1 := by
      decide +kernel
    exact absurd (hu 0 (by decide) 1 (by decide) hdup.1 hdup.2.1 hdup.2.2) (by decide)

end VesperOS.NameUniqueness
