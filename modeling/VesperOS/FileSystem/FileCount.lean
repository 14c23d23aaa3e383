import VesperOS.FileSystem.FaultyCalls
import VesperOS.FileSystem.MapRefinement

/-! # The file counter of the superblock

`fs_write_new` reports a failed superblock write, `fs_delete` ignores it. As long as
the superblock transfers of `fs_delete` succeed, `num_files` is the number of active
entries after every history of calls that all returned 0.
-/
namespace VesperOS.FileCount
open ByteMemory DiskProgram FaultPattern VesperFs DiskVolume Transfers DirectoryEdits StoredNames FaultyTransfers
  FaultyCalls MapRefinement

def activeCount (dir : Mem) : ℕ := ((Finset.range fsMaxFiles).filter (fun i => Active dir i)).card

section Count
variable {dir dir' : Mem} {slot : ℕ} (hslot : slot < fsMaxFiles) (hsame : ∀ j, j ≠ slot → SameEntry dir dir' j)
include hsame

theorem activeCount_same (h : Active dir' slot ↔ Active dir slot) : activeCount dir' = activeCount dir := by
  unfold activeCount
  congr 1
  apply Finset.filter_congr
  intro j _
  by_cases hj : j = slot
  · rw [hj]
    exact h
  · exact (hsame j hj).active

include hslot

theorem activeCount_add (h : ¬ Active dir slot) (h' : Active dir' slot) : activeCount dir' = activeCount dir + 1 := by
  have hins : (Finset.range fsMaxFiles).filter (fun i => Active dir' i) =
      insert slot ((Finset.range fsMaxFiles).filter (fun i => Active dir i)) := by
    ext j
    rw [Finset.mem_insert,Finset.mem_filter,Finset.mem_filter,Finset.mem_range]
    by_cases hj : j = slot
    · subst hj
      exact iff_of_true ⟨hslot,h'⟩ (Or.inl rfl)
    · rw [(hsame j hj).active]
      simp [hj]
  unfold activeCount
  rw [hins,Finset.card_insert_of_notMem (fun hm => h (Finset.mem_filter.mp hm).2)]

end Count

theorem activeCount_le (dir : Mem) : activeCount dir ≤ fsMaxFiles :=
  (Finset.card_filter_le _ _).trans_eq (Finset.card_range _)

/-- The counter is right, and the data of all entries end on the drive. -/
structure Counted (N : ℕ) (d : Disk Sector) : Prop where
  count : numFiles (d fsSuperLba) = activeCount (dirOf d)
  bound : highestEnd (dirOf d) ≤ N

/-! ## The end of the extents -/

theorem sectorsOf_mod (n : ℕ) : sectorsOf (n % 2^32) = sectorsOf n := by
  unfold sectorsOf
  rw [Nat.mod_add_mod]

theorem endLba_setEntry {dir : Mem} {i start size : ℕ} {name : Bytes} (hs : start < 2^32) :
    endLba (setEntry dir i name start size) i = (start+sectorsOf size) % 2^32 := by
  have hsize : fileSize (setEntry dir i name start size) i = size % 2^32 := by
    unfold fileSize setEntry
    simp (disch := omega) only [read32_write32_of_disjoint,read32_write32_same]
  unfold endLba
  rw [setEntry_startLba hs,hsize,sectorsOf_mod]

/-- The last data sector lies on the drive. -/
theorem payload_fits {N : ℕ} {fails : ℕ → Bool} {n lba k : ℕ} (hlba : lba ≤ N) (h : AllPass (drive N) fails n lba k) :
    lba+k ≤ N := by
  cases k with
  | zero => exact hlba
  | succ k =>
    have hlast : lba+k < N := of_decide_eq_true (accepts_of_passes (h k (by omega)))
    omega

theorem highestEnd_newDir {N : ℕ} (hN : N ≤ 2^28) {d : Disk Sector} {name data : Bytes} {slot : ℕ}
    (hend : highestEnd (dirOf d) ≤ N) (hfit : highestEnd (dirOf d)+sectorsOf data.length ≤ N) :
    highestEnd (newDir d name data slot) ≤ N := by
  have hle := highestEnd_le_iff.mp hend
  refine highestEnd_le_iff.mpr ⟨hle.1,?_⟩
  intro j hj ha
  by_cases hjs : j = slot
  · subst hjs
    unfold newDir
    rw [endLba_setEntry (by omega)]
    exact (Nat.mod_le _ _).trans hfit
  · have hsame := @setEntry_sameEntry (dirOf d) _ (highestEnd (dirOf d)) data.length name _ hjs
    have he := hle.2 j hj (hsame.active.mp ha)
    unfold newDir endLba at *
    rw [hsame.startLba,hsame.fileSize]
    exact he

theorem erasedDir_sameEntry (d : Disk Sector) {i j : ℕ} (hj : j ≠ i) : SameEntry (dirOf d) (erasedDir d i) j :=
  sameEntry_of_ne hj fun _ _ => write32_of_outside _ (by omega)

theorem erasedDir_inactive (d : Disk Sector) (i : ℕ) : ¬ Active (erasedDir d i) i := by
  rintro ⟨_,hf⟩
  apply hf
  unfold erasedDir flags
  rw [read32_write32_same]
  rfl

theorem highestEnd_erasedDir {N : ℕ} {d : Disk Sector} {i : ℕ} (hend : highestEnd (dirOf d) ≤ N) :
    highestEnd (erasedDir d i) ≤ N := by
  have hle := highestEnd_le_iff.mp hend
  refine highestEnd_le_iff.mpr ⟨hle.1,?_⟩
  intro j hj ha
  by_cases hji : j = i
  · subst hji
    exact absurd ha (erasedDir_inactive d j)
  · have hsame := erasedDir_sameEntry d hji
    have he := hle.2 j hj (hsame.active.mp ha)
    unfold endLba at *
    rw [hsame.startLba,hsame.fileSize]
    exact he

/-! ## Calls that return 0 -/

section Calls
variable {N : ℕ} (hN : N ≤ 2^28) {fails : ℕ → Bool} {d : Disk Sector} {name data : Bytes}
include hN

theorem fsFormat_fits (h : (faultyRun (drive N) fails fsFormat 0 d).result = 0) : fsDataLba ≤ N := by
  have hplace : ∀ x, (drive N).accepts x = true → (drive N).place x = x := fun x hx => place_of_accepts hN hx
  rw [fsFormat,faultyRun_bind,faultyRun_writeSuper hplace] at h
  split at h
  · rw [faultyRun_bind] at h
    split at h
    · rename_i hok
      obtain ⟨j,hpass,-,⟨-,-,rfl⟩ | ⟨hno,-⟩⟩ := @faultyRun_writeDir _ fails hplace (0+1)
        (Function.update d fsSuperLba blankSuper) (fun _ => 0)
      · have hlast : fsDirLba+7 < N := of_decide_eq_true (accepts_of_passes (hpass 7 (by decide)))
        exact hlast
      · exact absurd (hno.symm.trans hok) (by decide)
    · cases h
  · cases h

theorem counted_format (h : (faultyRun (drive N) fails fsFormat 0 d).result = 0) :
    Counted N (faultyRun (drive N) fails fsFormat 0 d).disk := by
  have hf := (always_faulty (always_fsFormat hN d) fails 0).2 h
  have hnone : ∀ i, ¬ Active (dirOf (faultyRun (drive N) fails fsFormat 0 d).disk) i := by
    intro i
    rw [hf.dir]
    exact not_active_blank i
  constructor
  · rw [hf.super,numFiles_blankSuper,activeCount,Finset.filter_false_of_mem (fun i _ => hnone i),Finset.card_empty]
  · exact highestEnd_le_iff.mpr ⟨fsFormat_fits hN h,fun i _ ha => absurd ha (hnone i)⟩

/-- Only a call that wrote its entry and finished returns 0. -/
theorem fsWriteNew_zero (hend : highestEnd (dirOf d) ≤ N)
    (h : (faultyRun (drive N) fails (fsWriteNew name data) 0 d).result = 0) :
    ∃ slot, EntryWritten N fails d name data slot ∧ Finished N fails data := by
  by_cases hw : ∃ slot, EntryWritten N fails d name data slot
  · obtain ⟨slot,hw⟩ := hw
    refine ⟨slot,hw,?_⟩
    by_contra hno
    rw [(fsWriteNew_stored hN hend hw).2.1,if_neg hno] at h
    cases h
  · rw [(fsWriteNew_kept hN hend (fun slot hs => hw ⟨slot,hs⟩)).2] at h
    cases h

theorem counted_writeNew (hc : Counted N d) (hz : 0 ∉ name)
    (h : (faultyRun (drive N) fails (fsWriteNew name data) 0 d).result = 0) :
    Counted N (faultyRun (drive N) fails (fsWriteNew name data) 0 d).disk := by
  obtain ⟨slot,hw,hfin⟩ := fsWriteNew_zero hN hc.bound h
  obtain ⟨hstored,-,hsuper⟩ := fsWriteNew_stored hN hc.bound hw
  obtain ⟨hslot,hcase⟩ := scanDir_slot hw.target
  have hle := activeCount_le (dirOf d)
  have hsame : ∀ j, j ≠ slot → SameEntry (dirOf d) (newDir d name data slot) j := fun j hj => setEntry_sameEntry hj
  have hactive : Active (newDir d name data slot) slot := setEntry_active hw.name_ne hz
  rw [if_pos hfin] at hsuper
  constructor
  · rw [hsuper,hstored.dir,newSuper]
    rcases hcase with ⟨ho,hm⟩ | ⟨ho,hfree,-⟩
    · rw [if_pos ho,hc.count,activeCount_same hsame (iff_of_true hactive hm.1)]
    · rw [ho,if_neg (by decide),activeCount_add hslot hsame hfree hactive,hc.count,numFiles_setNumFiles]
      simp only [fsMaxFiles] at hle
      omega
  · rw [hstored.dir]
    exact highestEnd_newDir hN hc.bound (payload_fits hc.bound hw.payload)

theorem fsDelete_zero (h : (faultyRun (drive N) fails (fsDelete name) 0 d).result = 0) :
    ∃ i, EntryErased N fails d name i ∧ DirWritten N fails := by
  by_cases hw : ∃ i, EntryErased N fails d name i
  · obtain ⟨i,hw⟩ := hw
    refine ⟨i,hw,?_⟩
    by_contra hno
    rw [(fsDelete_erased hN hw).2.2.1,if_neg hno] at h
    cases h
  · rw [(fsDelete_kept hN (fun i hi => hw ⟨i,hi⟩)).2.2.2] at h
    cases h

theorem counted_delete (hc : Counted N d) (hf : fails 16 = false ∧ fails 17 = false)
    (h : (faultyRun (drive N) fails (fsDelete name) 0 d).result = 0) :
    Counted N (faultyRun (drive N) fails (fsDelete name) 0 d).disk := by
  obtain ⟨i,hw,hdir⟩ := fsDelete_zero hN h
  obtain ⟨hnew,-,-,hsuper⟩ := fsDelete_erased hN hw
  obtain ⟨hi,hm⟩ := findEntry_some hw.found
  have hle := activeCount_le (dirOf d)
  have hlast : fsDirLba+7 < N := of_decide_eq_true (accepts_of_passes (hdir 7 (by decide)))
  have hacc : (drive N).accepts fsSuperLba = true := decide_eq_true (lt_trans (by decide) hlast)
  have hpass : SuperPasses N fails := by
    unfold SuperPasses passes
    rw [hacc,hf.1,hf.2]
    exact ⟨rfl,rfl⟩
  -- the erased directory has one active entry less
  have hcount : activeCount (dirOf d) = activeCount (erasedDir d i) + 1 := by
    apply activeCount_add hi _ (erasedDir_inactive d i) hm.1
    intro j hj x h1 h2
    exact (erasedDir_sameEntry d hj x h1 h2).symm
  have hpos : 0 < numFiles (d fsSuperLba) := by
    rw [hc.count,hcount]
    omega
  rw [if_pos ⟨hdir,hpass,hpos⟩] at hsuper
  constructor
  · rw [hsuper,hnew,numFiles_setNumFiles,hc.count,hcount,Nat.add_sub_cancel]
    rw [hc.count]
    simp only [fsMaxFiles] at hle
    omega
  · rw [hnew]
    exact highestEnd_erasedDir hc.bound

end Calls

/-! ## Histories -/

/-- Disks after a history that starts with `fs_format` and in which every call returned 0; `P` restricts the faults
inside `fs_delete`. -/
inductive Succeeded (N : ℕ) (P : (ℕ → Bool) → Prop) : Disk Sector → Prop
  | format {d : Disk Sector} (fails : ℕ → Bool) : (faultyRun (drive N) fails fsFormat 0 d).result = 0 →
      Succeeded N P (faultyRun (drive N) fails fsFormat 0 d).disk
  | writeNew {d : Disk Sector} (name data : Bytes) (fails : ℕ → Bool) : Succeeded N P d → 0 ∉ name →
      (faultyRun (drive N) fails (fsWriteNew name data) 0 d).result = 0 →
      Succeeded N P (faultyRun (drive N) fails (fsWriteNew name data) 0 d).disk
  | delete {d : Disk Sector} (name : Bytes) (fails : ℕ → Bool) : Succeeded N P d → 0 ∉ name → P fails →
      (faultyRun (drive N) fails (fsDelete name) 0 d).result = 0 →
      Succeeded N P (faultyRun (drive N) fails (fsDelete name) 0 d).disk

/-- Neither superblock transfer of `fs_delete` fails: after eight sectors read and eight written they are the
transfers 16 and 17. -/
def SuperblockHolds (fails : ℕ → Bool) : Prop := fails 16 = false ∧ fails 17 = false

theorem Succeeded.counted {N : ℕ} (hN : N ≤ 2^28) {d : Disk Sector} (h : Succeeded N SuperblockHolds d) :
    Counted N d := by
  induction h with
  | format fails hr => exact counted_format hN hr
  | writeNew name data fails _ hz hr ih => exact counted_writeNew hN ih hz hr
  | delete name fails _ hz hf hr ih => exact counted_delete hN ih hf hr

theorem numFiles_eq_activeCount {N : ℕ} (hN : N ≤ 2^28) {d : Disk Sector} (h : Succeeded N SuperblockHolds d) :
    numFiles (d fsSuperLba) = activeCount (dirOf d) := (h.counted hN).count

/-- A disk with the file `a`. -/
def oneFileDisk : Disk Sector :=
  let d := (faultyRun (drive 200) (fun _ => false) fsFormat 0 (fun _ _ => 0)).disk
  (faultyRun (drive 200) (fun _ => false) (fsWriteNew [0x61] [1]) 0 d).disk

theorem oneFileDisk_succeeded (P : (ℕ → Bool) → Prop) : Succeeded 200 P oneFileDisk := by
  apply Succeeded.writeNew
  · apply Succeeded.format
    decide +kernel
  · decide
  · decide +kernel

/-- The one file is deleted. -/
theorem numFiles_deleted : ∃ d, Succeeded 200 SuperblockHolds d ∧ numFiles (d fsSuperLba) = 0 ∧ activeCount (dirOf d) = 0 := by
  have hr : (faultyRun (drive 200) (fun _ => false) (fsDelete [0x61]) 0 oneFileDisk).result = 0 := by decide +kernel
  have hnum : numFiles ((faultyRun (drive 200) (fun _ => false) (fsDelete [0x61]) 0 oneFileDisk).disk fsSuperLba) = 0 := by
    decide +kernel
  have hs := Succeeded.delete [0x61] (fun _ => false) (oneFileDisk_succeeded SuperblockHolds) (by decide) ⟨rfl,rfl⟩ hr
  exact ⟨_,hs,hnum,(numFiles_eq_activeCount (by decide) hs).symm.trans hnum⟩

/-- The superblock cannot be read inside `fs_delete`, which returns 0 all the same. -/
theorem numFiles_drifts : ∃ d, Succeeded 200 (fun _ => True) d ∧ numFiles (d fsSuperLba) ≠ activeCount (dirOf d) := by
  have hr : (faultyRun (drive 200) (fun n => n = 16) (fsDelete [0x61]) 0 oneFileDisk).result = 0 := by decide +kernel
  refine ⟨_,.delete [0x61] (fun n => n = 16) (oneFileDisk_succeeded _) (by decide) trivial hr,?_⟩
  decide +kernel

end VesperOS.FileCount
