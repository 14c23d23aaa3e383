import VesperOS.FileSystem.FaultyTransfers
import VesperOS.FileSystem.StoredNames

/-! # `fs_write_new` and `fs_delete` under a pattern of faults

Both operations become visible with one directory sector, the one that holds the
entry. Up to that sector a failure leaves the directory as it was; from there on the
entry is on the disk, whatever the call reports. Names are arbitrary.
-/
namespace VesperOS.FaultyCalls
open ByteMemory DiskProgram FaultPattern VesperFs DiskVolume Transfers DirectoryEdits FaultyTransfers

/-! ## `fs_write_new` -/

/-- The directory that the call writes. -/
def newDir (d : Disk Sector) (name data : Bytes) (slot : ℕ) : Mem :=
  setEntry (dirOf d) slot name (highestEnd (dirOf d)) data.length

def newSuper (d : Disk Sector) (name : Bytes) : Sector :=
  if (scanDir (dirOf d) name).isOverwrite then d fsSuperLba else setNumFiles (d fsSuperLba) (numFiles (d fsSuperLba)+1)

/-- The disk after the data loop. -/
def withData (d : Disk Sector) (data : Bytes) : Disk Sector :=
  overwrite d (highestEnd (dirOf d)) (dataSectors (sectorsOf data.length) data)

/-- The call reaches its directory write: all reads and data writes succeed and a slot is found. -/
structure Committing (N : ℕ) (fails : ℕ → Bool) (d : Disk Sector) (name data : Bytes) (slot : ℕ) : Prop where
  name_ne : name ≠ []
  magic : magicOk (d fsSuperLba) = true
  target : (scanDir (dirOf d) name).target = some slot
  super : passes (drive N) fails 0 fsSuperLba = true
  dir : AllPass (drive N) fails 1 fsDirLba fsDirSectors
  payload : AllPass (drive N) fails 9 (highestEnd (dirOf d)) (sectorsOf data.length)

/-- The directory sector that holds the entry is written as well. -/
structure EntryWritten (N : ℕ) (fails : ℕ → Bool) (d : Disk Sector) (name data : Bytes) (slot : ℕ) : Prop
    extends Committing N fails d name data slot where
  entry : AllPass (drive N) fails (9+sectorsOf data.length) fsDirLba (slot/8+1)

/-- The transfers after the data succeed: the directory and the superblock. -/
def Finished (N : ℕ) (fails : ℕ → Bool) (data : Bytes) : Prop :=
  AllPass (drive N) fails (9+sectorsOf data.length) fsDirLba fsDirSectors ∧
    passes (drive N) fails (17+sectorsOf data.length) fsSuperLba = true

instance (N : ℕ) (fails : ℕ → Bool) (data : Bytes) : Decidable (Finished N fails data) :=
  inferInstanceAs (Decidable (_ ∧ _))

/-- The directory, the superblock and all sectors below the end of the extents are the same. -/
structure Kept (d d' : Disk Sector) : Prop where
  dir : dirOf d' = dirOf d
  super : d' fsSuperLba = d fsSuperLba
  below : ∀ x, fsDataLba ≤ x → x < highestEnd (dirOf d) → d' x = d x

theorem kept_overwrite (d : Disk Sector) (ss : List Sector) : Kept d (overwrite d (highestEnd (dirOf d)) ss) := by
  refine ⟨dirOf_above d ss,?_,fun _ _ hx => overwrite_of_outside (Or.inl hx)⟩
  exact overwrite_of_outside (Or.inl (lt_of_lt_of_le (by decide) fsDataLba_le_highestEnd))

/-- The entry is on the disk with its data. -/
structure Stored (d : Disk Sector) (name data : Bytes) (slot : ℕ) (d' : Disk Sector) : Prop where
  dir : dirOf d' = newDir d name data slot
  data : ∀ x, fsDataLba ≤ x → d' x = withData d data x

theorem withData_super (d : Disk Sector) (data : Bytes) : withData d data fsSuperLba = d fsSuperLba :=
  (kept_overwrite d _).super

theorem update_super {d : Disk Sector} {b : Sector} {x : ℕ} (hx : fsDirLba ≤ x) :
    Function.update d fsSuperLba b x = d x := by
  have hne : x ≠ fsSuperLba := by
    simp only [fsDirLba,fsSuperLba] at *
    omega
  exact Function.update_of_ne hne _ _

theorem sectorsOf_le (n : ℕ) : sectorsOf n ≤ 2^23 := by
  unfold sectorsOf
  omega

theorem oneSector_newDir {d : Disk Sector} {name data : Bytes} {slot : ℕ} (hslot : slot < fsMaxFiles) :
    OneSector (dirOf (withData d data)) (newDir d name data slot) (slot/8) := by
  have hdir : dirOf (withData d data) = dirOf d := dirOf_above d _
  rw [hdir]
  exact oneSector_of_entry hslot fun x hx => setEntry_of_outside hx

section WriteNew
variable {N : ℕ} (hN : N ≤ 2^28) {fails : ℕ → Bool} {d : Disk Sector} {name data : Bytes} {slot : ℕ}
include hN

/-- The second half of the call starts with transfer `9+n` after `n` data sectors. -/
theorem faultyRun_fsWriteNew_commit (hend : highestEnd (dirOf d) ≤ N) (h : Committing N fails d name data slot) :
    faultyRun (drive N) fails (fsWriteNew name data) 0 d =
      faultyRun (drive N) fails (do
          if ← writeDir (newDir d name data slot) then
            if ← writeSuper (newSuper d name) then pure (0 : ℤ) else pure (-1)
          else pure (-1)) (9+sectorsOf data.length) (withData d data) := by
  have hsectors := sectorsOf_le data.length
  have hlen := length_dataSectors (sectorsOf data.length) data
  have hrun := @faultyRun_ataWriteSectors (drive N) fails (fun x hx => place_of_accepts hN hx) 9 (highestEnd (dirOf d))
    (dataSectors (sectorsOf data.length) data) d (hlen.symm ▸ h.payload)
  unfold fsWriteNew
  rw [if_neg h.name_ne,faultyRun_bind,faultyRun_readSuper (lowPlaced_drive N) d h.super]
  dsimp only
  rw [faultyRun_bind,faultyRun_readDir (lowPlaced_drive N) d h.dir]
  dsimp only
  rw [if_neg (by rw [h.magic]; decide),h.target]
  dsimp only
  rw [scanDir_next,writeData_eq data (by omega),Nat.add_zero,faultyRun_bind,hrun,hlen]
  rfl

/-- What the call does once the data are on the disk: `j` directory sectors get written. -/
theorem fsWriteNew_commit (hend : highestEnd (dirOf d) ≤ N) (h : Committing N fails d name data slot) :
    ∃ j, AllPass (drive N) fails (9+sectorsOf data.length) fsDirLba j ∧
      (j < fsDirSectors → passes (drive N) fails (9+sectorsOf data.length+j) (fsDirLba+j) = false) ∧
      (∀ x, fsDirLba ≤ x → (faultyRun (drive N) fails (fsWriteNew name data) 0 d).disk x =
        overwrite (withData d data) fsDirLba ((dirSectors (newDir d name data slot)).take j) x) ∧
      (faultyRun (drive N) fails (fsWriteNew name data) 0 d).result = (if Finished N fails data then 0 else -1) ∧
      (faultyRun (drive N) fails (fsWriteNew name data) 0 d).disk fsSuperLba =
        if Finished N fails data then newSuper d name else d fsSuperLba := by
  have hplace : ∀ x, (drive N).accepts x = true → (drive N).place x = x := fun x hx => place_of_accepts hN hx
  obtain ⟨j,hpass,hdisk,hcase⟩ := @faultyRun_writeDir _ fails hplace (9+sectorsOf data.length)
    (withData d data) (newDir d name data slot)
  have hsuper : overwrite (withData d data) fsDirLba ((dirSectors (newDir d name data slot)).take j) fsSuperLba =
      d fsSuperLba := (dirOnly_overwrite _ _ _).super.trans (withData_super d data)
  refine ⟨j,hpass,?_⟩
  rw [faultyRun_fsWriteNew_commit hN hend h,faultyRun_bind,hdisk]
  rcases hcase with ⟨hr,hu,rfl⟩ | ⟨hr,hj,hfail⟩
  · refine ⟨fun h => absurd h (lt_irrefl _),?_⟩
    rw [hr,hu,if_pos rfl,faultyRun_bind,faultyRun_writeSuper hplace,
      show 9+sectorsOf data.length+8 = 17+sectorsOf data.length by omega]
    have hfin : Finished N fails data ↔ passes (drive N) fails (17+sectorsOf data.length) fsSuperLba = true :=
      ⟨fun h => h.2,fun h => ⟨hpass,h⟩⟩
    cases hp : passes (drive N) fails (17+sectorsOf data.length) fsSuperLba with
    | true =>
      rw [if_pos (hfin.mpr hp),if_pos (hfin.mpr hp)]
      dsimp only
      rw [if_pos rfl,if_pos rfl,faultyRun_pure]
      dsimp only
      exact ⟨fun x hx => update_super hx,rfl,Function.update_self _ _ _⟩
    | false =>
      have hno : ¬ Finished N fails data := by
        intro h
        rw [hfin.mp h] at hp
        cases hp
      rw [if_neg hno,if_neg hno]
      exact ⟨fun x _ => rfl,rfl,hsuper⟩
  · have hno : ¬ Finished N fails data := by
      intro h
      have hp := h.1 j hj
      rw [hfail] at hp
      cases hp
    rw [hr,if_neg hno,if_neg hno]
    exact ⟨fun _ => hfail,fun x _ => rfl,rfl,hsuper⟩

theorem fsWriteNew_stored (hend : highestEnd (dirOf d) ≤ N) (h : EntryWritten N fails d name data slot) :
    Stored d name data slot (faultyRun (drive N) fails (fsWriteNew name data) 0 d).disk ∧
      (faultyRun (drive N) fails (fsWriteNew name data) 0 d).result = (if Finished N fails data then 0 else -1) ∧
      (faultyRun (drive N) fails (fsWriteNew name data) 0 d).disk fsSuperLba =
        if Finished N fails data then newSuper d name else d fsSuperLba := by
  have hslot := (StoredNames.scanDir_slot h.target).1
  obtain ⟨j,hpass,hfail,hdisk,hr,hs⟩ := fsWriteNew_commit hN hend h.toCommitting
  -- the entry's sector is among those written
  have hlate : slot/8 < j := by
    by_contra hle
    have hp := h.entry j (by omega)
    rw [hfail (by simp only [fsDirSectors,fsMaxFiles] at *; omega)] at hp
    cases hp
  refine ⟨⟨?_,?_⟩,hr,hs⟩
  · rw [dirOf_congr (fun x hx _ => hdisk x hx),dirOf_cut (oneSector_newDir hslot),if_pos hlate]
  · intro x hx
    rw [hdisk x (le_trans (by decide) hx),dirOnly_overwrite _ _ _ x (Or.inr hx)]

/-- A call that does not come to its directory write leaves at most data behind the extents. -/
theorem fsWriteNew_early (hend : highestEnd (dirOf d) ≤ N) (h : ∀ slot, ¬ Committing N fails d name data slot) :
    ∃ ss, (faultyRun (drive N) fails (fsWriteNew name data) 0 d).disk = overwrite d (highestEnd (dirOf d)) ss ∧
      (faultyRun (drive N) fails (fsWriteNew name data) 0 d).result = -1 := by
  have hsectors := sectorsOf_le data.length
  by_cases hne : name = []
  · rw [fsWriteNew,if_pos hne]
    exact ⟨[],rfl,rfl⟩
  rw [fsWriteNew,if_neg hne,faultyRun_bind]
  cases hs : passes (drive N) fails 0 fsSuperLba with
  | false =>
    have hread := faultyRun_readSuper_fail d hs
    rw [hread.1,hread.2]
    exact ⟨[],rfl,rfl⟩
  | true =>
    rw [faultyRun_readSuper (lowPlaced_drive N) d hs]
    dsimp only
    rw [faultyRun_bind]
    by_cases hd : AllPass (drive N) fails (0+1) fsDirLba fsDirSectors
    · rw [faultyRun_readDir (lowPlaced_drive N) d hd]
      dsimp only
      by_cases hmagic : magicOk (d fsSuperLba) = false
      · rw [if_pos hmagic]
        exact ⟨[],rfl,rfl⟩
      rw [if_neg hmagic]
      cases ht : (scanDir (dirOf d) name).target with
      | none => exact ⟨[],rfl,rfl⟩
      | some slot =>
        have hw : ¬ AllPass (drive N) fails 9 (highestEnd (dirOf d)) (sectorsOf data.length) :=
          fun hw => h slot ⟨hne,by simpa using hmagic,ht,hs,hd,hw⟩
        obtain ⟨k,hk,hpass,hfail⟩ := exists_first_fail hw
        have hrun := @faultyRun_ataWriteSectors_fail _ _ (fun x hx => place_of_accepts hN hx) _ _ _
          (dataSectors (sectorsOf data.length) data) d (by rw [length_dataSectors]; exact hk) hpass hfail
        dsimp only
        rw [scanDir_next,writeData_eq data (by omega),Nat.add_zero,faultyRun_bind,hrun]
        exact ⟨_,rfl,rfl⟩
    · have hread := faultyRun_readDir_fail d hd
      rw [hread.1,hread.2]
      exact ⟨[],rfl,rfl⟩

theorem fsWriteNew_kept (hend : highestEnd (dirOf d) ≤ N) (h : ∀ slot, ¬ EntryWritten N fails d name data slot) :
    Kept d (faultyRun (drive N) fails (fsWriteNew name data) 0 d).disk ∧
      (faultyRun (drive N) fails (fsWriteNew name data) 0 d).result = -1 := by
  by_cases hc : ∃ slot, Committing N fails d name data slot
  · obtain ⟨slot,hc⟩ := hc
    obtain ⟨j,hpass,_,hdisk,hr,hsuper⟩ := fsWriteNew_commit hN hend hc
    have hslot := (StoredNames.scanDir_slot hc.target).1
    have hearly : ¬ slot/8 < j := fun hlt => h slot ⟨hc,allPass_mono hpass hlt⟩
    have hfin : ¬ Finished N fails data := by
      intro hf
      have hlt : slot/8 < fsDirSectors := by
        simp only [fsDirSectors,fsMaxFiles] at *
        omega
      exact h slot ⟨hc,allPass_mono hf.1 hlt⟩
    rw [if_neg hfin] at hr hsuper
    refine ⟨⟨?_,hsuper,?_⟩,hr⟩
    · rw [dirOf_congr (fun x hx _ => hdisk x hx),dirOf_cut (oneSector_newDir hslot),if_neg hearly]
      exact dirOf_above d _
    · intro x hx hlt
      rw [hdisk x (le_trans (by decide) hx),dirOnly_overwrite _ _ _ x (Or.inr hx)]
      exact overwrite_of_outside (Or.inl hlt)
  · obtain ⟨ss,hdisk,hr⟩ := fsWriteNew_early hN hend (fun slot hs => hc ⟨slot,hs⟩)
    rw [hdisk]
    exact ⟨kept_overwrite d ss,hr⟩

end WriteNew

/-! ## `fs_delete` -/

def erasedDir (d : Disk Sector) (i : ℕ) : Mem := write32 (dirOf d) (entryAddr i+40) 1

/-- The call finds entry `i`, and the directory sector that holds it is written. -/
structure EntryErased (N : ℕ) (fails : ℕ → Bool) (d : Disk Sector) (name : Bytes) (i : ℕ) : Prop where
  name_ne : name ≠ []
  dir : AllPass (drive N) fails 0 fsDirLba fsDirSectors
  found : findEntry (dirOf d) name = some i
  entry : AllPass (drive N) fails 8 fsDirLba (i/8+1)

def DirWritten (N : ℕ) (fails : ℕ → Bool) : Prop := AllPass (drive N) fails 8 fsDirLba fsDirSectors

instance (N : ℕ) (fails : ℕ → Bool) : Decidable (DirWritten N fails) := inferInstanceAs (Decidable (AllPass _ _ _ _ _))

/-- The superblock is read and written after the directory. -/
def SuperPasses (N : ℕ) (fails : ℕ → Bool) : Prop :=
  passes (drive N) fails 16 fsSuperLba = true ∧ passes (drive N) fails 17 fsSuperLba = true

instance (N : ℕ) (fails : ℕ → Bool) : Decidable (SuperPasses N fails) := inferInstanceAs (Decidable (_ ∧ _))

theorem oneSector_erasedDir (d : Disk Sector) {i : ℕ} (hi : i < fsMaxFiles) : OneSector (dirOf d) (erasedDir d i) (i/8) :=
  oneSector_of_entry hi fun x hx => write32_of_outside _ (by omega)

section Delete
variable {N : ℕ} (hN : N ≤ 2^28) {fails : ℕ → Bool} {d : Disk Sector} {name : Bytes} {i : ℕ}
include hN

/-- A call that finds its entry writes `j` directory sectors. -/
theorem fsDelete_found (hne : name ≠ []) (hd : AllPass (drive N) fails 0 fsDirLba fsDirSectors)
    (hf : findEntry (dirOf d) name = some i) :
    ∃ j, AllPass (drive N) fails 8 fsDirLba j ∧
      (j < fsDirSectors → passes (drive N) fails (8+j) (fsDirLba+j) = false) ∧
      (∀ x, fsDirLba ≤ x → (faultyRun (drive N) fails (fsDelete name) 0 d).disk x =
        overwrite d fsDirLba ((dirSectors (erasedDir d i)).take j) x) ∧
      (faultyRun (drive N) fails (fsDelete name) 0 d).result = (if DirWritten N fails then 0 else -1) ∧
      (faultyRun (drive N) fails (fsDelete name) 0 d).disk fsSuperLba =
        if DirWritten N fails ∧ SuperPasses N fails ∧ 0 < numFiles (d fsSuperLba) then
          setNumFiles (d fsSuperLba) (numFiles (d fsSuperLba)-1) else d fsSuperLba := by
  have hplace : ∀ x, (drive N).accepts x = true → (drive N).place x = x := fun x hx => place_of_accepts hN hx
  obtain ⟨j,hpass,hdisk,hcase⟩ := @faultyRun_writeDir _ fails hplace 8 d (erasedDir d i)
  have hsuper : overwrite d fsDirLba ((dirSectors (erasedDir d i)).take j) fsSuperLba = d fsSuperLba :=
    (dirOnly_overwrite _ _ _).super
  refine ⟨j,hpass,?_⟩
  rw [fsDelete,if_neg hne,faultyRun_bind,faultyRun_readDir (lowPlaced_drive N) d hd]
  dsimp only
  rw [hf]
  dsimp only
  rw [faultyRun_bind,Nat.zero_add,show write32 (dirOf d) (entryAddr i+40) 1 = erasedDir d i from rfl,hdisk]
  rcases hcase with ⟨hr,hu,rfl⟩ | ⟨hr,hj,hfail⟩
  · have hdir : DirWritten N fails := hpass
    refine ⟨fun h => absurd h (lt_irrefl _),?_⟩
    rw [hr,hu,if_pos rfl,if_pos hdir,faultyRun_bind]
    cases h16 : passes (drive N) fails 16 fsSuperLba with
    | false =>
      have hread := faultyRun_readSuper_fail (n := 8+8)
        (overwrite d fsDirLba ((dirSectors (erasedDir d i)).take fsDirSectors)) h16
      have hno : ¬ (DirWritten N fails ∧ SuperPasses N fails ∧ 0 < numFiles (d fsSuperLba)) := by
        rintro ⟨_,⟨h,_⟩,_⟩
        rw [h16] at h
        cases h
      rw [hread.1,hread.2,if_neg hno]
      exact ⟨fun x _ => rfl,rfl,hsuper⟩
    | true =>
      rw [faultyRun_readSuper (lowPlaced_drive N) _ (show passes (drive N) fails (8+8) fsSuperLba = true from h16),hsuper]
      dsimp only
      by_cases hpos : 0 < numFiles (d fsSuperLba)
      · rw [if_pos hpos,faultyRun_bind,faultyRun_writeSuper hplace]
        cases h17 : passes (drive N) fails 17 fsSuperLba with
        | false =>
          have hno : ¬ (DirWritten N fails ∧ SuperPasses N fails ∧ 0 < numFiles (d fsSuperLba)) := by
            rintro ⟨_,⟨_,h⟩,_⟩
            rw [h17] at h
            cases h
          rw [if_neg hno]
          exact ⟨fun x _ => rfl,rfl,hsuper⟩
        | true =>
          have hyes : DirWritten N fails ∧ SuperPasses N fails ∧ 0 < numFiles (d fsSuperLba) := ⟨hdir,⟨h16,h17⟩,hpos⟩
          rw [if_pos hyes,if_pos rfl,faultyRun_pure]
          dsimp only
          exact ⟨fun x hx => update_super hx,rfl,Function.update_self _ _ _⟩
      · rw [if_neg hpos,if_neg (fun h => hpos h.2.2)]
        exact ⟨fun x _ => rfl,rfl,hsuper⟩
  · have hno : ¬ DirWritten N fails := by
      intro h
      have hp := h j hj
      rw [hfail] at hp
      cases hp
    have hno' : ¬ (DirWritten N fails ∧ SuperPasses N fails ∧ 0 < numFiles (d fsSuperLba)) := fun h => hno h.1
    rw [hr,if_neg hno,if_neg hno']
    exact ⟨fun _ => hfail,fun x _ => rfl,rfl,hsuper⟩

theorem fsDelete_erased (h : EntryErased N fails d name i) :
    dirOf (faultyRun (drive N) fails (fsDelete name) 0 d).disk = erasedDir d i ∧
      (∀ x, fsDataLba ≤ x → (faultyRun (drive N) fails (fsDelete name) 0 d).disk x = d x) ∧
      (faultyRun (drive N) fails (fsDelete name) 0 d).result = (if DirWritten N fails then 0 else -1) ∧
      (faultyRun (drive N) fails (fsDelete name) 0 d).disk fsSuperLba =
        if DirWritten N fails ∧ SuperPasses N fails ∧ 0 < numFiles (d fsSuperLba) then
          setNumFiles (d fsSuperLba) (numFiles (d fsSuperLba)-1) else d fsSuperLba := by
  have hi := (findEntry_some h.found).1
  obtain ⟨j,hpass,hfail,hdisk,hr,hs⟩ := fsDelete_found hN h.name_ne h.dir h.found
  have hlate : i/8 < j := by
    by_contra hle
    have hp := h.entry j (by omega)
    rw [hfail (by simp only [fsDirSectors,fsMaxFiles] at *; omega)] at hp
    cases hp
  refine ⟨?_,?_,hr,hs⟩
  · rw [dirOf_congr (fun x hx _ => hdisk x hx),dirOf_cut (oneSector_erasedDir d hi),if_pos hlate]
  · intro x hx
    rw [hdisk x (le_trans (by decide) hx),dirOnly_overwrite _ _ _ x (Or.inr hx)]

theorem fsDelete_kept (h : ∀ i, ¬ EntryErased N fails d name i) :
    dirOf (faultyRun (drive N) fails (fsDelete name) 0 d).disk = dirOf d ∧
      (∀ x, fsDataLba ≤ x → (faultyRun (drive N) fails (fsDelete name) 0 d).disk x = d x) ∧
      (faultyRun (drive N) fails (fsDelete name) 0 d).disk fsSuperLba = d fsSuperLba ∧
      (faultyRun (drive N) fails (fsDelete name) 0 d).result = -1 := by
  by_cases hne : name = []
  · rw [fsDelete,if_pos hne]
    exact ⟨rfl,fun _ _ => rfl,rfl,rfl⟩
  by_cases hd : AllPass (drive N) fails 0 fsDirLba fsDirSectors
  · cases hf : findEntry (dirOf d) name with
    | none =>
      rw [fsDelete,if_neg hne,faultyRun_bind,faultyRun_readDir (lowPlaced_drive N) d hd]
      dsimp only
      rw [hf]
      exact ⟨rfl,fun _ _ => rfl,rfl,rfl⟩
    | some i =>
      have hi := (findEntry_some hf).1
      have hlt : i/8 < fsDirSectors := by
        simp only [fsDirSectors,fsMaxFiles] at *
        omega
      obtain ⟨j,hpass,_,hdisk,hr,hs⟩ := fsDelete_found hN hne hd hf
      have hearly : ¬ i/8 < j := fun hlt => h i ⟨hne,hd,hf,allPass_mono hpass hlt⟩
      have hno : ¬ DirWritten N fails := fun hw => h i ⟨hne,hd,hf,allPass_mono hw hlt⟩
      rw [if_neg hno] at hr
      rw [if_neg (fun h => hno h.1)] at hs
      refine ⟨?_,?_,hs,hr⟩
      · rw [dirOf_congr (fun x hx _ => hdisk x hx),dirOf_cut (oneSector_erasedDir d hi),if_neg hearly]
      · intro x hx
        rw [hdisk x (le_trans (by decide) hx),dirOnly_overwrite _ _ _ x (Or.inr hx)]
  · have hread := faultyRun_readDir_fail d hd
    rw [fsDelete,if_neg hne,faultyRun_bind,hread.1,hread.2]
    exact ⟨rfl,fun _ _ => rfl,rfl,rfl⟩

end Delete

end VesperOS.FaultyCalls
