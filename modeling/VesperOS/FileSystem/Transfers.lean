import VesperOS.FileSystem.DiskVolume

/-! # Transfers of several sectors

The disks that a sequential write can leave behind are those with a first part
of it written. For the directory this means: one entry fits in one sector, so the
directory read back is the old one or the new one.
-/
namespace VesperOS.Transfers
open ByteMemory DiskProgram VesperFs DiskVolume

/-- Consecutive sectors written from `lba` on. -/
def overwrite (d : Disk Sector) (lba : ℕ) : List Sector → Disk Sector
  | [] => d
  | s :: ss => overwrite (Function.update d lba s) (lba+1) ss

theorem overwrite_of_outside {d : Disk Sector} {lba x : ℕ} {ss : List Sector} (h : x < lba ∨ lba + ss.length ≤ x) :
    overwrite d lba ss x = d x := by
  induction ss generalizing d lba with
  | nil => rfl
  | cons s ss ih =>
    rw [List.length_cons] at h
    rw [overwrite,ih (by omega),Function.update_of_ne (by omega)]

theorem overwrite_inside (d : Disk Sector) (lba : ℕ) {k : ℕ} {ss : List Sector} (h : k < ss.length) :
    overwrite d lba ss (lba+k) = ss.getD k (fun _ => 0) := by
  induction ss generalizing d lba k with
  | nil => cases h
  | cons s ss ih =>
    cases k with
    | zero =>
      rw [overwrite,overwrite_of_outside (by omega)]
      simp
    | succ k =>
      rw [List.length_cons] at h
      have hi := ih (Function.update d lba s) (lba+1) (k := k) (by omega)
      rw [overwrite,List.getD_cons_succ,← hi]
      congr 1
      omega

/-! ## Without faults -/

section Run
variable {N : ℕ} (hN : N ≤ 2^28)
include hN

theorem place_of_accepts {lba : ℕ} (h : (drive N).accepts lba = true) : (drive N).place lba = lba := by
  have hlt : lba < N := of_decide_eq_true h
  exact Nat.mod_eq_of_lt (by omega)

theorem run_ataReadSectors {lba count : ℕ} (d : Disk Sector) (h : lba + count ≤ N) :
    run (drive N) (ataReadSectors lba count) d = (some ((List.range count).map (fun j => d (lba+j))),d) := by
  induction count generalizing lba with
  | zero => rfl
  | succ count ih =>
    have hacc : (drive N).accepts lba = true := decide_eq_true (by omega)
    rw [ataReadSectors,run_bind,run_readAt,if_pos hacc,place_of_accepts hN hacc]
    dsimp only
    rw [run_bind,ih (by omega)]
    dsimp only
    rw [run_pure,List.range_succ_eq_map,List.map_cons,List.map_map]
    congr 2
    simp [Function.comp_def,Nat.add_comm,Nat.add_left_comm]

/-- Sectors past the end of the drive are not written, and the transfer fails there. -/
theorem run_ataWriteSectors {lba : ℕ} (ss : List Sector) (d : Disk Sector) (h : lba ≤ N) :
    run (drive N) (ataWriteSectors lba ss) d =
      (decide (lba + ss.length ≤ N),overwrite d lba (ss.take (N-lba))) := by
  induction ss generalizing lba d with
  | nil =>
    rw [ataWriteSectors,run_pure,List.length_nil,Nat.add_zero,decide_eq_true h,List.take_nil]
    rfl
  | cons s ss ih =>
    rw [ataWriteSectors,run_bind,run_writeAt]
    by_cases hlt : lba < N
    · have hacc : (drive N).accepts lba = true := decide_eq_true hlt
      rw [hacc,place_of_accepts hN hacc]
      dsimp only
      rw [if_pos rfl,if_pos rfl,ih _ (by omega)]
      obtain ⟨n,hn⟩ : ∃ n, N - lba = n+1 := ⟨N-lba-1,by omega⟩
      rw [hn,List.take_succ_cons,overwrite,show N-(lba+1) = n by omega,List.length_cons]
      congr 2
      apply propext
      omega
    · have hacc : (drive N).accepts lba = false := decide_eq_false hlt
      rw [hacc]
      dsimp only
      rw [if_neg (by decide),if_neg (by decide),run_pure,show N-lba = 0 by omega,List.take_zero,
        decide_eq_false (by rw [List.length_cons]; omega)]
      rfl

theorem run_readSuper (d : Disk Sector) (h : fsSuperLba < N) :
    run (drive N) readSuper d = (some (d fsSuperLba),d) := by
  rw [readSuper,run_bind,run_ataReadSectors hN d (by omega)]
  rfl

theorem run_readDir (d : Disk Sector) (h : fsDataLba ≤ N) : run (drive N) readDir d = (some (dirOf d),d) := by
  rw [readDir,run_bind,run_ataReadSectors hN d h]
  rfl

end Run

/-! ## With faults -/

section Faults
variable {N : ℕ} (hN : N ≤ 2^28) {Q : Disk Sector → Prop} {d : Disk Sector}
include hN

theorem always_ataReadSectors (lba count : ℕ) (hq : Q d) :
    Always (drive N) Q (fun r d' => d' = d ∧
        (r = none ∨ (lba + count ≤ N ∨ count = 0) ∧ r = some ((List.range count).map (fun j => d (lba+j)))))
      (ataReadSectors lba count) d := by
  induction count generalizing lba with
  | zero => exact Always.pure hq ⟨rfl,Or.inr ⟨Or.inr rfl,rfl⟩⟩
  | succ count ih =>
    apply (Always.readAt hq).bind
    rintro r d' _ ⟨rfl,hr⟩
    rcases hr with rfl | ⟨hacc,rfl⟩
    · exact Always.pure hq ⟨rfl,Or.inl rfl⟩
    · dsimp only
      apply (ih (lba+1)).bind
      rintro r d'' _ ⟨rfl,hr⟩
      have hlt : lba < N := of_decide_eq_true hacc
      rcases hr with rfl | ⟨hle,rfl⟩
      · exact Always.pure hq ⟨rfl,Or.inl rfl⟩
      · refine Always.pure hq ⟨rfl,Or.inr ⟨Or.inl (by omega),?_⟩⟩
        rw [place_of_accepts hN hacc,List.range_succ_eq_map,List.map_cons,List.map_map]
        congr 2
        simp [Function.comp_def,Nat.add_comm,Nat.add_left_comm]

theorem always_ataWriteSectors {lba : ℕ} {ss : List Sector} (hq : ∀ j, Q (overwrite d lba (ss.take j))) :
    Always (drive N) Q (fun ok d' => ∃ j, d' = overwrite d lba (ss.take j) ∧
        (ok = true → ss.length ≤ j ∧ (ss = [] ∨ lba + ss.length ≤ N)))
      (ataWriteSectors lba ss) d := by
  induction ss generalizing lba d with
  | nil => exact Always.pure (hq 0) ⟨0,rfl,fun _ => ⟨le_refl _,Or.inl rfl⟩⟩
  | cons s ss ih =>
    have hw : (drive N).accepts lba = true → Q (Function.update d ((drive N).place lba) s) := by
      intro hacc
      rw [place_of_accepts hN hacc]
      exact hq 1
    apply (Always.writeAt (hq 0) hw).bind
    rintro ok d' _ (⟨rfl,rfl⟩ | ⟨hacc,rfl⟩)
    · exact Always.pure (hq 0) ⟨0,rfl,fun h => (nomatch h)⟩
    · rw [place_of_accepts hN hacc]
      have hq' : ∀ j, Q (overwrite (Function.update d lba s) (lba+1) (ss.take j)) := fun j => hq (j+1)
      cases ok with
      | false => exact Always.pure (hq' 0) ⟨1,rfl,fun h => (nomatch h)⟩
      | true =>
        apply (ih hq').mono
        rintro ok d' ⟨j,rfl,hj⟩
        refine ⟨j+1,rfl,fun h => ⟨Nat.succ_le_succ (hj h).1,Or.inr ?_⟩⟩
        have hlt : lba < N := of_decide_eq_true hacc
        rw [List.length_cons]
        rcases (hj h).2 with rfl | hle
        · exact hlt
        · omega

theorem always_readSuper (hq : Q d) :
    Always (drive N) Q (fun r d' => d' = d ∧ (r = none ∨ r = some (d fsSuperLba))) readSuper d := by
  apply (always_ataReadSectors hN fsSuperLba 1 hq).bind
  rintro r d' _ ⟨rfl,rfl | ⟨_,rfl⟩⟩
  · exact Always.pure hq ⟨rfl,Or.inl rfl⟩
  · exact Always.pure hq ⟨rfl,Or.inr rfl⟩

/-- The directory is read only from a drive that holds all of it. -/
theorem always_readDir (hq : Q d) :
    Always (drive N) Q (fun r d' => d' = d ∧ (r = none ∨ (fsDataLba ≤ N ∧ r = some (dirOf d)))) readDir d := by
  apply (always_ataReadSectors hN fsDirLba fsDirSectors hq).bind
  rintro r d' _ ⟨rfl,rfl | ⟨hle,rfl⟩⟩
  · exact Always.pure hq ⟨rfl,Or.inl rfl⟩
  · exact Always.pure hq ⟨rfl,Or.inr ⟨hle.resolve_right (by decide),rfl⟩⟩

end Faults

/-! ## The directory -/

theorem dirOf_overwrite (d : Disk Sector) (dir : Mem) (j : ℕ) {a : ℕ} (ha : a < 4096) :
    dirOf (overwrite d fsDirLba ((dirSectors dir).take j)) a = if a/512 < j then dir a else dirOf d a := by
  have hlen : ((dirSectors dir).take j).length = min j 8 := by simp [dirSectors,fsDirSectors]
  rw [dirOf_apply _ ha]
  by_cases hj : a/512 < j
  · have hk : a/512 < ((dirSectors dir).take j).length := by omega
    have h8 : a/512 < 8 := by omega
    have hget : ((dirSectors dir).take j).getD (a/512) (fun _ => 0) = memSector dir (512*(a/512)) := by
      simp [dirSectors,fsDirSectors,h8,hj]
    rw [if_pos hj,show 130+a/512 = fsDirLba+a/512 from rfl,overwrite_inside d fsDirLba hk,hget,
      sectorMem_memSector _ _ (by omega)]
    congr 1
    omega
  · rw [if_neg hj,overwrite_of_outside (Or.inr (by simp only [fsDirLba]; omega)),dirOf_apply _ ha]

/-- Directories that differ in sector `q` only. -/
def OneSector (dir dir' : Mem) (q : ℕ) : Prop := q < 8 ∧ ∀ a, a/512 ≠ q → dir' a = dir a

/-- The directory read back after a first part of the write is the old or the new one. -/
theorem dirOf_cut {d : Disk Sector} {dir' : Mem} {q : ℕ} (h : OneSector (dirOf d) dir' q) (j : ℕ) :
    dirOf (overwrite d fsDirLba ((dirSectors dir').take j)) = if q < j then dir' else dirOf d := by
  obtain ⟨hq,h⟩ := h
  funext a
  by_cases ha : a < 4096
  · rw [dirOf_overwrite d dir' j ha]
    by_cases hqa : a/512 = q
    · rw [hqa]
      split <;> rfl
    · rw [h a hqa]
      split <;> split <;> first | rfl | exact (h a hqa).symm
  · rw [dirOf_high _ (by omega)]
    split
    · rw [h a (by omega),dirOf_high _ (by omega)]
    · rw [dirOf_high _ (by omega)]

/-- Only the directory sectors differ. -/
def DirOnly (d d' : Disk Sector) : Prop := ∀ x, x < fsDirLba ∨ fsDataLba ≤ x → d' x = d x

theorem DirOnly.super {d d' : Disk Sector} (h : DirOnly d d') : d' fsSuperLba = d fsSuperLba :=
  h _ (Or.inl (by decide))

theorem dirOnly_overwrite (d : Disk Sector) (dir : Mem) (j : ℕ) :
    DirOnly d (overwrite d fsDirLba ((dirSectors dir).take j)) := by
  intro x hx
  apply overwrite_of_outside
  have hlen : ((dirSectors dir).take j).length ≤ 8 := by simp [dirSectors,fsDirSectors]
  simp only [fsDirLba,fsDataLba] at *
  omega

section WriteDir
variable {N : ℕ} (hN : N ≤ 2^28) {d : Disk Sector} {dir' : Mem} {q : ℕ}
include hN

theorem run_writeDir (h : OneSector (dirOf d) dir' q) (hlba : fsDataLba ≤ N) :
    ∃ d', run (drive N) (writeDir dir') d = (true,d') ∧ DirOnly d d' ∧ dirOf d' = dir' := by
  have hlen : (dirSectors dir').length = 8 := by simp [dirSectors,fsDirSectors]
  have hdir : fsDirLba ≤ N := le_trans (by decide : fsDirLba ≤ fsDataLba) hlba
  have hrun := run_ataWriteSectors hN (dirSectors dir') d hdir
  simp only [fsDataLba] at hlba
  refine ⟨_,hrun.trans (Prod.ext ?_ rfl),dirOnly_overwrite d dir' _,?_⟩
  · rw [hlen]
    exact decide_eq_true hlba
  · rw [dirOf_cut h,if_pos]
    have hq := h.1
    simp only [fsDirLba]
    omega

theorem always_writeDir {Q : Disk Sector → Prop} (h : OneSector (dirOf d) dir' q)
    (hq : ∀ d', DirOnly d d' → dirOf d' = dirOf d ∨ dirOf d' = dir' → Q d') :
    Always (drive N) Q (fun ok d' => DirOnly d d' ∧ (dirOf d' = dirOf d ∨ dirOf d' = dir') ∧
      (ok = true → dirOf d' = dir')) (writeDir dir') d := by
  have hlen : (dirSectors dir').length = 8 := by simp [dirSectors,fsDirSectors]
  have hdir : ∀ j, dirOf (overwrite d fsDirLba ((dirSectors dir').take j)) = dirOf d ∨
      dirOf (overwrite d fsDirLba ((dirSectors dir').take j)) = dir' := by
    intro j
    rw [dirOf_cut h]
    split
    · exact Or.inr rfl
    · exact Or.inl rfl
  apply (always_ataWriteSectors hN fun j => hq _ (dirOnly_overwrite d dir' j) (hdir j)).mono
  rintro ok _ ⟨j,rfl,hj⟩
  refine ⟨dirOnly_overwrite d dir' j,hdir j,?_⟩
  intro hok
  have hq := h.1
  rw [dirOf_cut h,if_pos (by have := (hj hok).1; omega)]

end WriteDir

/-! ## File data -/

def dataSectors : ℕ → Bytes → List Sector
  | 0, _ => []
  | n+1, rest => padSector (rest.take 512) :: dataSectors n (rest.drop 512)

theorem length_dataSectors (n : ℕ) (rest : Bytes) : (dataSectors n rest).length = n := by
  induction n generalizing rest with
  | zero => rfl
  | succ n ih => rw [dataSectors,List.length_cons,ih]

theorem writeData_eq {base n s : ℕ} (rest : Bytes) (h : base + s + n ≤ 2^32) :
    writeData base n s rest = ataWriteSectors (base+s) (dataSectors n rest) := by
  induction n generalizing s rest with
  | zero => rfl
  | succ n ih => rw [writeData,dataSectors,ataWriteSectors,Nat.mod_eq_of_lt (by omega),ih _ (by omega),Nat.add_assoc]

theorem dataSectors_getD {n k : ℕ} {rest : Bytes} (h : k < n) :
    (dataSectors n rest).getD k (fun _ => 0) = padSector ((rest.drop (512*k)).take 512) := by
  induction n generalizing k rest with
  | zero => cases h
  | succ n ih =>
    cases k with
    | zero => rfl
    | succ k =>
      rw [dataSectors,List.getD_cons_succ,ih (by omega),List.drop_drop]
      congr 3
      omega

/-- What was written is what the extent holds. -/
theorem extent_overwrite (d : Disk Sector) (base : ℕ) {data : Bytes} (h : data.length + 511 < 2^32) :
    extent (overwrite d base (dataSectors (sectorsOf data.length) data)) base data.length = data := by
  apply List.ext_getElem
  · simp [extent]
  · intro k h1 h2
    have hk : k/512 < sectorsOf data.length := by
      unfold sectorsOf
      omega
    have hget := overwrite_inside d base (hk.trans_eq (length_dataSectors _ data).symm)
    simp only [extent,List.getElem_map,List.getElem_range]
    rw [hget,dataSectors_getD hk,sectorMem,dif_pos (Nat.mod_lt _ (by decide)),padSector]
    have hmod : k % 512 < 512 := Nat.mod_lt _ (by decide)
    have hsum : 512*(k/512)+k%512 = k := Nat.div_add_mod k 512
    simp [List.getD_eq_getElem?_getD,hmod,hsum,h2]

end VesperOS.Transfers
