import VesperOS.Base.FaultPattern
import VesperOS.FileSystem.DirectoryEdits

/-! # Transfers under a pattern of faults

What the sector loops of `ata.c` leave when the failing transfers are known: the
first failure ends the loop, and the sectors before it have been transferred.
-/
namespace VesperOS.FaultyTransfers
open ByteMemory DiskProgram FaultPattern VesperFs DiskVolume Transfers

/-- The drive behind the 28 address bits; which transfers fail is left to the pattern. -/
def ataDrive : Drive := ⟨fun _ => true,ataSector⟩

section Loops
variable {D : Drive} {fails : ℕ → Bool}

/-- The `c` transfers from number `n` on, to consecutive sectors, succeed. -/
def AllPass (D : Drive) (fails : ℕ → Bool) (n lba c : ℕ) : Prop := ∀ j < c, passes D fails (n+j) (lba+j) = true

instance (n lba c : ℕ) : Decidable (AllPass D fails n lba c) := inferInstanceAs (Decidable (∀ j < c, _))

theorem allPass_succ {n lba c : ℕ} :
    AllPass D fails n lba (c+1) ↔ passes D fails n lba = true ∧ AllPass D fails (n+1) (lba+1) c := by
  constructor
  · intro h
    refine ⟨h 0 (by omega),?_⟩
    intro j hj
    have hs := h (j+1) (by omega)
    rwa [show n+(j+1) = n+1+j by omega,show lba+(j+1) = lba+1+j by omega] at hs
  · rintro ⟨h0,hs⟩ j hj
    cases j with
    | zero => exact h0
    | succ j =>
      have hj' := hs j (by omega)
      rwa [show n+1+j = n+(j+1) by omega,show lba+1+j = lba+(j+1) by omega] at hj'

theorem allPass_mono {n lba c c' : ℕ} (h : AllPass D fails n lba c) (hc : c' ≤ c) : AllPass D fails n lba c' :=
  fun j hj => h j (by omega)

theorem faultyRun_ataReadSectors {n lba c : ℕ} (d : Disk Sector) (h : AllPass D fails n lba c) :
    faultyRun D fails (ataReadSectors lba c) n d =
      ⟨some ((List.range c).map (fun j => d (D.place (lba+j)))),n+c,d⟩ := by
  induction c generalizing n lba with
  | zero => rfl
  | succ c ih =>
    obtain ⟨h0,hs⟩ := allPass_succ.mp h
    have hlist : (List.range (c+1)).map (fun j => d (D.place (lba+j))) =
        d (D.place lba) :: (List.range c).map (fun j => d (D.place (lba+1+j))) := by
      rw [List.range_succ_eq_map,List.map_cons,List.map_map,Nat.add_zero]
      congr 1
      apply List.map_congr_left
      intro j _
      rw [Function.comp_apply,show lba+1+j = lba+Nat.succ j by omega]
    rw [ataReadSectors,faultyRun_bind,faultyRun_readAt,if_pos h0]
    dsimp only
    rw [faultyRun_bind,ih hs]
    dsimp only
    rw [faultyRun_pure,hlist,show n+1+c = n+(c+1) by omega]

theorem faultyRun_ataReadSectors_fail {n lba c : ℕ} (d : Disk Sector) (h : ¬ AllPass D fails n lba c) :
    (faultyRun D fails (ataReadSectors lba c) n d).result = none ∧
      (faultyRun D fails (ataReadSectors lba c) n d).disk = d := by
  induction c generalizing n lba with
  | zero => exact absurd (fun j hj => absurd hj (Nat.not_lt_zero j)) h
  | succ c ih =>
    rw [ataReadSectors,faultyRun_bind,faultyRun_readAt]
    cases h0 : passes D fails n lba with
    | false => exact ⟨rfl,rfl⟩
    | true =>
      obtain ⟨hr,hd⟩ := @ih (n+1) (lba+1) (fun hs => h (allPass_succ.mpr ⟨h0,hs⟩))
      dsimp only
      rw [if_pos rfl]
      dsimp only
      rw [faultyRun_bind,hr]
      exact ⟨rfl,hd⟩

theorem commands_ataReadSectors (n lba c : ℕ) (d : Disk Sector) : commands D fails (ataReadSectors lba c) n d = [] := by
  induction c generalizing n lba with
  | zero => rfl
  | succ c ih =>
    rw [ataReadSectors,commands_bind,commands_readAt,List.nil_append,faultyRun_readAt]
    dsimp only
    split
    · rfl
    · rw [commands_bind,ih,List.nil_append]
      split <;> rfl

theorem accepts_of_passes {n lba : ℕ} (h : passes D fails n lba = true) : D.accepts lba = true :=
  (Bool.and_eq_true_iff.mp h).1

theorem exists_first_fail {n lba c : ℕ} (h : ¬ AllPass D fails n lba c) :
    ∃ k < c, AllPass D fails n lba k ∧ passes D fails (n+k) (lba+k) = false := by
  induction c with
  | zero => exact absurd (fun j hj => absurd hj (Nat.not_lt_zero j)) h
  | succ c ih =>
    by_cases hc : AllPass D fails n lba c
    · refine ⟨c,by omega,hc,?_⟩
      by_contra hp
      apply h
      intro j hj
      rcases Nat.lt_succ_iff_lt_or_eq.mp hj with hj | rfl
      · exact hc j hj
      · simpa using hp
    · obtain ⟨k,hk,hall,hf⟩ := ih hc
      exact ⟨k,by omega,hall,hf⟩

section Writes
variable (hD : ∀ x, D.accepts x = true → D.place x = x)
include hD

/-- A write stops at its first failure, with the sectors before it written. -/
theorem faultyRun_ataWriteSectors_fail {n lba k : ℕ} {ss : List Sector} (d : Disk Sector) (hk : k < ss.length)
    (h : AllPass D fails n lba k) (hf : passes D fails (n+k) (lba+k) = false) :
    faultyRun D fails (ataWriteSectors lba ss) n d = ⟨false,n+k+1,overwrite d lba (ss.take k)⟩ := by
  induction ss generalizing n lba k d with
  | nil => cases hk
  | cons s ss ih =>
    rw [ataWriteSectors,faultyRun_bind,faultyRun_writeAt]
    cases k with
    | zero =>
      rw [Nat.add_zero,Nat.add_zero] at hf
      rw [hf]
      rfl
    | succ k =>
      obtain ⟨hp,hs⟩ := allPass_succ.mp h
      rw [show n+(k+1) = n+1+k by omega,show lba+(k+1) = lba+1+k by omega] at hf
      have hrest := ih (Function.update d lba s) (Nat.lt_of_succ_lt_succ hk) hs hf
      rw [hp,hD lba (accepts_of_passes hp)]
      dsimp only
      rw [if_pos rfl,if_pos rfl,hrest,List.take_succ_cons,overwrite,show n+1+k+1 = n+(k+1)+1 by omega]

theorem faultyRun_ataWriteSectors {n lba : ℕ} {ss : List Sector} (d : Disk Sector)
    (h : AllPass D fails n lba ss.length) :
    faultyRun D fails (ataWriteSectors lba ss) n d = ⟨true,n+ss.length,overwrite d lba ss⟩ := by
  induction ss generalizing n lba d with
  | nil => rfl
  | cons s ss ih =>
    obtain ⟨hp,hs⟩ := allPass_succ.mp h
    have hrest := ih (Function.update d lba s) hs
    rw [ataWriteSectors,faultyRun_bind,faultyRun_writeAt,hp,hD lba (accepts_of_passes hp)]
    dsimp only
    rw [if_pos rfl,if_pos rfl,hrest,overwrite,List.length_cons,show n+1+ss.length = n+(ss.length+1) by omega]

end Writes

theorem mem_commands_ataWriteSectors {n lba x : ℕ} {ss : List Sector} {d : Disk Sector}
    (h : x ∈ commands D fails (ataWriteSectors lba ss) n d) : ∃ j < ss.length, x = D.place (lba+j) := by
  induction ss generalizing n lba d with
  | nil => cases h
  | cons s ss ih =>
    rw [ataWriteSectors,commands_bind,commands_writeAt,List.singleton_append,List.mem_cons] at h
    rcases h with rfl | h
    · exact ⟨0,by simp,rfl⟩
    · rw [faultyRun_writeAt] at h
      dsimp only at h
      split at h
      · obtain ⟨j,hj,rfl⟩ := ih h
        exact ⟨j+1,Nat.succ_lt_succ hj,by rw [show lba+(j+1) = lba+1+j by omega]⟩
      · cases h

end Loops

/-! ## The superblock and the directory -/

/-- The drive addresses the sectors before the data area as they are. -/
def LowPlaced (D : Drive) : Prop := ∀ x < fsDataLba, D.place x = x

theorem lowPlaced_ataDrive : LowPlaced ataDrive := by
  intro x hx
  exact Nat.mod_eq_of_lt (lt_trans hx (by decide))

theorem lowPlaced_drive (N : ℕ) : LowPlaced (drive N) := lowPlaced_ataDrive

section Metadata
variable {D : Drive} {fails : ℕ → Bool} (hD : LowPlaced D) {n : ℕ} (d : Disk Sector)

theorem commands_readSuper (n : ℕ) : commands D fails readSuper n d = [] := by
  rw [readSuper,commands_bind,commands_ataReadSectors,List.nil_append]
  split <;> rfl

theorem commands_readDir (n : ℕ) : commands D fails readDir n d = [] := by
  rw [readDir,commands_bind,commands_ataReadSectors,List.nil_append]
  split <;> rfl

theorem faultyRun_readSuper_fail (h : passes D fails n fsSuperLba = false) :
    (faultyRun D fails readSuper n d).result = none ∧ (faultyRun D fails readSuper n d).disk = d := by
  have hall : ¬ AllPass D fails n fsSuperLba 1 := by
    intro hall
    rw [(allPass_succ.mp hall).1] at h
    cases h
  obtain ⟨hr,hd⟩ := faultyRun_ataReadSectors_fail d hall
  rw [readSuper,faultyRun_bind,hr]
  exact ⟨rfl,hd⟩

theorem faultyRun_readDir_fail (h : ¬ AllPass D fails n fsDirLba fsDirSectors) :
    (faultyRun D fails readDir n d).result = none ∧ (faultyRun D fails readDir n d).disk = d := by
  obtain ⟨hr,hd⟩ := faultyRun_ataReadSectors_fail d h
  rw [readDir,faultyRun_bind,hr]
  exact ⟨rfl,hd⟩

include hD

theorem faultyRun_readSuper (h : passes D fails n fsSuperLba = true) :
    faultyRun D fails readSuper n d = ⟨some (d fsSuperLba),n+1,d⟩ := by
  have hall : AllPass D fails n fsSuperLba 1 := allPass_succ.mpr ⟨h,fun j hj => absurd hj (Nat.not_lt_zero j)⟩
  rw [readSuper,faultyRun_bind,faultyRun_ataReadSectors d hall]
  simp [hD fsSuperLba (by decide)]

theorem faultyRun_readDir (h : AllPass D fails n fsDirLba fsDirSectors) :
    faultyRun D fails readDir n d = ⟨some (dirOf d),n+8,d⟩ := by
  have hlist : (List.range fsDirSectors).map (fun j => d (D.place (fsDirLba+j))) =
      (List.range fsDirSectors).map (fun j => d (fsDirLba+j)) := by
    apply List.map_congr_left
    intro j hj
    have hlt := List.mem_range.mp hj
    rw [hD _ (by simp only [fsDirLba,fsDirSectors,fsDataLba] at *; omega)]
  rw [readDir,faultyRun_bind,faultyRun_ataReadSectors d h,hlist]
  rfl

end Metadata

section WriteMetadata
variable {D : Drive} {fails : ℕ → Bool} (hD : ∀ x, D.accepts x = true → D.place x = x) (n : ℕ) (d : Disk Sector)
include hD

theorem faultyRun_writeSuper (sb : Sector) : faultyRun D fails (writeSuper sb) n d =
    ⟨passes D fails n fsSuperLba,n+1,if passes D fails n fsSuperLba then Function.update d fsSuperLba sb else d⟩ := by
  have hnone : AllPass D fails n fsSuperLba 0 := fun j hj => absurd hj (Nat.not_lt_zero j)
  unfold writeSuper
  cases hp : passes D fails n fsSuperLba with
  | true =>
    have hall : AllPass D fails n fsSuperLba 1 :=
      allPass_succ.mpr ⟨hp,fun j hj => absurd hj (Nat.not_lt_zero j)⟩
    rw [@faultyRun_ataWriteSectors _ _ hD _ _ [sb] d hall]
    rfl
  | false => rw [@faultyRun_ataWriteSectors_fail _ _ hD _ _ _ [sb] d Nat.zero_lt_one hnone hp]; rfl

/-- The directory is written up to its first failing sector. -/
theorem faultyRun_writeDir (dir : Mem) : ∃ j, AllPass D fails n fsDirLba j ∧
    (faultyRun D fails (writeDir dir) n d).disk = overwrite d fsDirLba ((dirSectors dir).take j) ∧
    (((faultyRun D fails (writeDir dir) n d).result = true ∧ (faultyRun D fails (writeDir dir) n d).used = n+8 ∧
        j = fsDirSectors) ∨
      ((faultyRun D fails (writeDir dir) n d).result = false ∧ j < fsDirSectors ∧
        passes D fails (n+j) (fsDirLba+j) = false)) := by
  have hlen : (dirSectors dir).length = fsDirSectors := by simp [dirSectors]
  unfold writeDir
  by_cases hall : AllPass D fails n fsDirLba fsDirSectors
  · refine ⟨fsDirSectors,hall,?_⟩
    rw [@faultyRun_ataWriteSectors _ _ hD _ _ (dirSectors dir) d (by rw [hlen]; exact hall),
      List.take_of_length_le hlen.le,hlen]
    exact ⟨rfl,Or.inl ⟨rfl,rfl,rfl⟩⟩
  · obtain ⟨j,hj,hpass,hfail⟩ := exists_first_fail hall
    refine ⟨j,hpass,?_⟩
    rw [@faultyRun_ataWriteSectors_fail _ _ hD _ _ _ (dirSectors dir) d (by rw [hlen]; exact hj) hpass hfail]
    exact ⟨rfl,Or.inr ⟨rfl,hj,hfail⟩⟩

end WriteMetadata

end VesperOS.FaultyTransfers
