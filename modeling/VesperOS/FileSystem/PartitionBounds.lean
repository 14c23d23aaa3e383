import VesperOS.FileSystem.FaultyTransfers

/-! # The sectors that `fs_write_new` may write

The directory is not validated when it is read, so `next_data_lba` can be any
32-bit number from `FS_DATA_LBA` on. The drive sees the low 28 bits of the address
only. The sectors before the partition are safe exactly when none of the data
sectors falls on them after this encoding.
-/
namespace VesperOS.PartitionBounds
open ByteMemory DiskProgram FaultPattern VesperFs DiskVolume DirectoryEdits FaultyTransfers

/-! ## The slot -/

/-- Some entry is free or carries the name. -/
def SlotFor (dir : Mem) (name : Bytes) : Prop := ∃ i < fsMaxFiles, ¬ Active dir i ∨ Matches dir name i

section Scan
variable {dir : Mem} {name : Bytes}

theorem scanEntry_target_none (acc : Scan) (i : ℕ) :
    (scanEntry dir name acc i).target = none ↔ acc.target = none ∧ Active dir i ∧ ¬ Matches dir name i := by
  by_cases hm : Matches dir name i
  · rw [(scanEntry_match hm).2]
    exact iff_of_false (by simp) (fun h => h.2.2 hm)
  · rw [(scanEntry_other acc hm).2]
    by_cases ha : Active dir i
    · simp [ha,hm]
    · simp [ha]

theorem scanDir_target_none : (scanDir dir name).target = none ↔ ¬ SlotFor dir name := by
  have hfold : ∀ (l : List ℕ) (acc : Scan), (l.foldl (scanEntry dir name) acc).target = none ↔
      acc.target = none ∧ ∀ i ∈ l, Active dir i ∧ ¬ Matches dir name i := by
    intro l
    induction l with
    | nil => intro acc; simp
    | cons i l ih =>
      intro acc
      rw [List.foldl_cons,ih,scanEntry_target_none,List.forall_mem_cons,and_assoc]
  unfold scanDir SlotFor
  rw [hfold]
  simp only [List.mem_range,true_and,not_exists,not_and,not_or,not_not]

end Scan

/-! ## Behind the buffer -/

/-- `dir_buf`, which takes its 4096 bytes from `dir`, and the memory behind it. -/
def bufBefore (behind dir : Mem) : Mem := fun a => if a < 4096 then dir a else behind a

/-- `fs_write_new` where `strcmp` goes on behind `dir_buf` when the last name is not terminated. -/
def fsWriteNewBefore (behind : Mem) (name data : Bytes) : FsProg ℤ :=
  if name = [] then pure (-1)
  else do
    match ← readSuper with
    | none => pure (-1)
    | some sb =>
      match ← readDir with
      | none => pure (-1)
      | some dir =>
        let dir := bufBefore behind dir
        if magicOk sb = false then pure (-1)
        else
          match (scanDir dir name).target with
          | none => pure (-1)
          | some slot =>
            let next := (scanDir dir name).nextDataLba
            if ← writeData next (sectorsOf data.length) 0 data then
              if ← writeDir (setEntry dir slot name next data.length) then
                let sb := if (scanDir dir name).isOverwrite then sb else setNumFiles sb (numFiles sb+1)
                if ← writeSuper sb then pure 0 else pure (-1)
              else pure (-1)
            else pure (-1)

theorem bufBefore_dirOf (d : Disk Sector) : bufBefore (fun _ => 0) (dirOf d) = dirOf d := by
  funext a
  by_cases ha : a < 4096
  · exact if_pos ha
  · exact (if_neg ha).trans (dirOf_high d (Nat.not_lt.mp ha)).symm

theorem highestEnd_bufBefore (behind dir : Mem) : highestEnd (bufBefore behind dir) = highestEnd dir := by
  have hsame (j : ℕ) (hj : j < fsMaxFiles) : SameEntry dir (bufBefore behind dir) j := by
    intro x h1 h2
    refine if_pos ?_
    simp only [entryAddr,fsMaxFiles] at *
    omega
  have hle (n : ℕ) : highestEnd (bufBefore behind dir) ≤ n ↔ highestEnd dir ≤ n := by
    rw [highestEnd_le_iff,highestEnd_le_iff]
    refine and_congr_right fun _ => forall₂_congr fun i hi => ?_
    have hend : endLba (bufBefore behind dir) i = endLba dir i := by
      rw [endLba,endLba,(hsame i hi).startLba,(hsame i hi).fileSize]
    rw [(hsame i hi).active,hend]
  exact le_antisymm ((hle _).mpr le_rfl) ((hle _).mp le_rfl)

/-! ## Commanded sectors -/

section Commands
variable {D : Drive} {fails : ℕ → Bool}

theorem mem_commands_writeData {base k s n x : ℕ} {rest : Bytes} {d : Disk Sector}
    (h : x ∈ commands D fails (writeData base k s rest) n d) : ∃ j < k, x = D.place ((base+(s+j)) % 2^32) := by
  induction k generalizing s n rest d with
  | zero => cases h
  | succ k ih =>
    rw [writeData,commands_bind,commands_writeAt,List.singleton_append,List.mem_cons] at h
    rcases h with rfl | h
    · exact ⟨0,by omega,rfl⟩
    · rw [faultyRun_writeAt] at h
      dsimp only at h
      split at h
      · obtain ⟨j,hj,rfl⟩ := ih h
        exact ⟨j+1,by omega,by rw [show s+(j+1) = s+1+j by omega]⟩
      · cases h

/-- Without faults every data sector is written. -/
theorem commands_writeData_all {base k s n j : ℕ} {rest : Bytes} {d : Disk Sector} (hj : j < k) :
    ataSector ((base+(s+j)) % 2^32) ∈ commands ataDrive (fun _ => false) (writeData base k s rest) n d := by
  induction k generalizing s n j rest d with
  | zero => cases hj
  | succ k ih =>
    rw [writeData,commands_bind,commands_writeAt,List.singleton_append]
    cases j with
    | zero => exact List.mem_cons_self
    | succ j =>
      have htail := @ih (s+1) (n+1) j (rest.drop 512)
        (Function.update d (ataSector ((base+s) % 2^32)) (padSector (rest.take 512))) (Nat.lt_of_succ_lt_succ hj)
      rw [show s+(j+1) = s+1+j by omega]
      exact List.mem_cons_of_mem _ htail

theorem mem_commands_writeDir {dir : Mem} {n x : ℕ} {d : Disk Sector} (hD : LowPlaced D)
    (h : x ∈ commands D fails (writeDir dir) n d) : fsDirLba ≤ x := by
  have hlen : (dirSectors dir).length = 8 := by simp [dirSectors,fsDirSectors]
  obtain ⟨j,hj,rfl⟩ := mem_commands_ataWriteSectors h
  rw [hD _ (by simp only [fsDirLba,fsDataLba]; omega)]
  exact Nat.le_add_right _ _

theorem mem_commands_writeSuper {sb : Sector} {n x : ℕ} {d : Disk Sector} (hD : LowPlaced D)
    (h : x ∈ commands D fails (writeSuper sb) n d) : x = fsSuperLba := by
  obtain ⟨j,hj,rfl⟩ := mem_commands_ataWriteSectors h
  obtain rfl : j = 0 := by simpa using hj
  rw [Nat.add_zero,hD _ (by decide)]

theorem commands_report (c : Prop) [Decidable c] (a b : ℤ) (n : ℕ) (d : Disk Sector) :
    commands D fails (if c then pure a else pure b) n d = [] := by
  split <;> rfl

/-- With zeros behind the buffer it is `fs_write_new` of the other modules. -/
theorem commands_fsWriteNewBefore_zero (hD : LowPlaced D) (name data : Bytes) (n : ℕ) (d : Disk Sector) :
    commands D fails (fsWriteNewBefore (fun _ => 0) name data) n d = commands D fails (fsWriteNew name data) n d := by
  unfold fsWriteNewBefore fsWriteNew
  by_cases hne : name = []
  · rw [if_pos hne,if_pos hne]
  rw [if_neg hne,if_neg hne,commands_bind,commands_bind]
  congr 1
  cases hs : passes D fails n fsSuperLba with
  | false => rw [(faultyRun_readSuper_fail d hs).1]
  | true =>
    rw [faultyRun_readSuper hD d hs]
    dsimp only
    rw [commands_bind,commands_bind]
    congr 1
    by_cases hdir : AllPass D fails (n+1) fsDirLba fsDirSectors
    · rw [faultyRun_readDir hD d hdir]
      dsimp only
      rewrite [bufBefore_dirOf]
      rfl
    · rw [(faultyRun_readDir_fail d hdir).1]

/-- A commanded sector is part of the superblock or the directory, or a data sector. -/
theorem mem_commands_fsWriteNew {behind : Mem} {name data : Bytes} {n x : ℕ} {d : Disk Sector} (hD : LowPlaced D)
    (h : x ∈ commands D fails (fsWriteNewBefore behind name data) n d) :
    name ≠ [] ∧ SlotFor (bufBefore behind (dirOf d)) name ∧ (fsSuperLba ≤ x ∨
      ∃ s < sectorsOf data.length, x = D.place ((highestEnd (dirOf d)+s) % 2^32)) := by
  unfold fsWriteNewBefore at h
  by_cases hne : name = []
  · rw [if_pos hne] at h
    cases h
  rw [if_neg hne,commands_bind,commands_readSuper,List.nil_append] at h
  refine ⟨hne,?_⟩
  cases hs : passes D fails n fsSuperLba with
  | false =>
    rw [(faultyRun_readSuper_fail d hs).1] at h
    cases h
  | true =>
    rw [faultyRun_readSuper hD d hs] at h
    dsimp only at h
    rw [commands_bind,commands_readDir,List.nil_append] at h
    by_cases hdir : AllPass D fails (n+1) fsDirLba fsDirSectors
    · rw [faultyRun_readDir hD d hdir] at h
      dsimp only at h
      split at h
      · cases h
      · cases ht : (scanDir (bufBefore behind (dirOf d)) name).target with
        | none =>
          rw [ht] at h
          cases h
        | some slot =>
          have hslot : SlotFor (bufBefore behind (dirOf d)) name := by
            by_contra hno
            rw [scanDir_target_none.mpr hno] at ht
            cases ht
          refine ⟨hslot,?_⟩
          rw [ht] at h
          dsimp only at h
          rw [scanDir_next,highestEnd_bufBefore,commands_bind,List.mem_append] at h
          rcases h with h | h
          · obtain ⟨j,hj,rfl⟩ := mem_commands_writeData h
            exact Or.inr ⟨j,hj,by rw [Nat.zero_add]⟩
          · left
            split at h
            · rw [commands_bind,List.mem_append] at h
              rcases h with h | h
              · exact le_trans (by decide) (mem_commands_writeDir hD h)
              · split at h
                · rw [commands_bind,List.mem_append] at h
                  rcases h with h | h
                  · exact (mem_commands_writeSuper hD h).ge
                  · rw [commands_report] at h
                    cases h
                · cases h
            · cases h
    · rw [(faultyRun_readDir_fail d hdir).1] at h
      cases h

end Commands

theorem allPass_ataDrive (n lba c : ℕ) : AllPass ataDrive (fun _ => false) n lba c := fun _ _ => rfl

/-- Without faults a call that finds a slot writes all data sectors. -/
theorem commands_fsWriteNew_data {behind : Mem} {d : Disk Sector} {name data : Bytes}
    (hmagic : magicOk (d fsSuperLba) = true) (hne : name ≠ []) (hslot : SlotFor (bufBefore behind (dirOf d)) name) {s : ℕ}
    (hs : s < sectorsOf data.length) : ataSector ((highestEnd (dirOf d)+s) % 2^32) ∈
      commands ataDrive (fun _ => false) (fsWriteNewBefore behind name data) 0 d := by
  unfold fsWriteNewBefore
  rw [if_neg hne,commands_bind,commands_readSuper,List.nil_append,
    faultyRun_readSuper lowPlaced_ataDrive d (show passes ataDrive (fun _ => false) 0 fsSuperLba = true from rfl)]
  dsimp only
  rw [commands_bind,commands_readDir,List.nil_append,
    faultyRun_readDir lowPlaced_ataDrive d (allPass_ataDrive _ _ _)]
  dsimp only
  rw [if_neg (by rw [hmagic]; decide)]
  cases ht : (scanDir (bufBefore behind (dirOf d)) name).target with
  | none => exact absurd hslot (scanDir_target_none.mp ht)
  | some slot =>
    dsimp only
    rw [scanDir_next,highestEnd_bufBefore,commands_bind]
    have hdata := @commands_writeData_all (highestEnd (dirOf d)) _ 0 (0+1+8) _ data d hs
    rw [show highestEnd (dirOf d)+(0+s) = highestEnd (dirOf d)+s by omega] at hdata
    exact List.mem_append_left _ hdata

/-- The sectors before the partition stay untouched under every pattern of faults exactly when no data sector,
reduced to 28 bits, is one of them. -/
theorem writes_in_partition_iff (behind : Mem) (d : Disk Sector) (hmagic : magicOk (d fsSuperLba) = true)
    (name data : Bytes) :
    (∀ fails : ℕ → Bool, ∀ x ∈ commands ataDrive fails (fsWriteNewBefore behind name data) 0 d, fsSuperLba ≤ x) ↔
      (name = [] ∨ ¬ SlotFor (bufBefore behind (dirOf d)) name ∨
        ∀ s < sectorsOf data.length, fsSuperLba ≤ ataSector ((highestEnd (dirOf d)+s) % 2^32)) := by
  constructor
  · intro h
    by_cases hne : name = []
    · exact Or.inl hne
    by_cases hslot : SlotFor (bufBefore behind (dirOf d)) name
    · refine Or.inr (Or.inr ?_)
      intro s hs
      exact h (fun _ => false) _ (commands_fsWriteNew_data hmagic hne hslot hs)
    · exact Or.inr (Or.inl hslot)
  · intro h fails x hx
    obtain ⟨hne,hslot,hx⟩ := mem_commands_fsWriteNew lowPlaced_ataDrive hx
    rcases h with h | h | h
    · exact absurd h hne
    · exact absurd hslot h
    · rcases hx with hx | ⟨s,hs,rfl⟩
      · exact hx
      · exact h s hs

/-- A disk with a superblock and a first directory sector. -/
def sampleDisk (first : Sector) : Disk Sector :=
  fun x => if x = fsSuperLba then blankSuper else if x = fsDirLba then first else fun _ => 0

/-- Behind the buffer lie the bytes 0xFF. -/
theorem writes_in_partition_blank : magicOk (sampleDisk (fun _ => 0) fsSuperLba) = true ∧
    ∀ fails : ℕ → Bool, ∀ x ∈ commands ataDrive fails (fsWriteNewBefore (fun _ => 0xFF) [0x61] [1,2,3]) 0
      (sampleDisk (fun _ => 0)), fsSuperLba ≤ x := by
  refine ⟨by decide +kernel,?_⟩
  apply (writes_in_partition_iff (fun _ => 0xFF) (sampleDisk (fun _ => 0)) (by decide +kernel) [0x61] [1,2,3]).mpr
  exact Or.inr (Or.inr (by decide +kernel))

/-- One active entry that starts at sector 2^28. -/
def damagedSector : Sector := memSector (setEntry (fun _ => 0) 0 [0x78] (2^28) 0) 0

theorem boot_sector_commanded : magicOk (sampleDisk damagedSector fsSuperLba) = true ∧
    ∃ fails : ℕ → Bool, ∃ x ∈ commands ataDrive fails (fsWriteNewBefore (fun _ => 0) [0x61] [1,2,3]) 0
      (sampleDisk damagedSector), x < fsSuperLba := by
  refine ⟨by decide +kernel,fun _ => false,0,?_,by decide⟩
  decide +kernel

end VesperOS.PartitionBounds
