import VesperOS.FileSystem.Transfers

/-! # Edits of the directory

The scan of `fs_write_new`, the entry it stores and the flag that `fs_delete`
sets, each with its effect on the contents of the volume.
-/
namespace VesperOS.DirectoryEdits
open ByteMemory DiskProgram VesperFs DiskVolume Transfers

/-! ## Storing an entry -/

section SetEntry
variable {dir : Mem} {i start size : ℕ} {name : Name}

theorem setEntry_of_outside {name : Bytes} {x : ℕ} (h : x < entryAddr i ∨ entryAddr i + 64 ≤ x) :
    setEntry dir i name start size x = dir x := by
  unfold setEntry fsNameMax
  simp (disch := omega) only [write32_of_outside,write8_of_ne,memcpy_of_outside,memset_of_outside]

theorem setEntry_name {k : ℕ} (hk : k ≤ 31) :
    setEntry dir i name.val start size (entryAddr i+k) = name.val.getD k 0 := by
  have hlen := name.property.2.1
  unfold setEntry fsNameMax at *
  simp (disch := omega) only [write32_of_outside]
  by_cases h31 : k = 31
  · subst h31
    rw [write8_same,List.getD_eq_getElem?_getD,List.getElem?_eq_none hlen]
    rfl
  · rw [write8_of_ne _ _ (by omega),memcpy_apply,if_pos (by omega),Nat.add_sub_cancel_left]

theorem setEntry_strcmpEq : strcmpEq (setEntry dir i name.val start size) (entryAddr i) name.val := by
  have hlen := name.property.2.1
  apply strcmpEq_of_getD
  intro k hk
  exact setEntry_name (hk.trans hlen)

theorem setEntry_startLba {name : Bytes} (hs : start < 2^32) : startLba (setEntry dir i name start size) i = start := by
  unfold startLba setEntry
  simp (disch := omega) only [read32_write32_of_disjoint,read32_write32_same]
  exact Nat.mod_eq_of_lt hs

theorem setEntry_fileSize {name : Bytes} (hs : size < 2^32) : fileSize (setEntry dir i name start size) i = size := by
  unfold fileSize setEntry
  simp (disch := omega) only [read32_write32_of_disjoint,read32_write32_same]
  exact Nat.mod_eq_of_lt hs

theorem setEntry_flags {name : Bytes} : flags (setEntry dir i name start size) i = 0 := by
  unfold flags setEntry
  rw [read32_write32_same]
  rfl

theorem setEntry_matches : Matches (setEntry dir i name.val start size) name.val i := by
  refine ⟨⟨strcmpEq_ne_zero setEntry_strcmpEq,?_⟩,setEntry_strcmpEq⟩
  rw [setEntry_flags]
  decide

end SetEntry

theorem oneSector_of_entry {dir dir' : Mem} {i : ℕ} (hi : i < fsMaxFiles)
    (h : ∀ x, x < entryAddr i ∨ entryAddr i + 64 ≤ x → dir' x = dir x) : OneSector dir dir' (i/8) := by
  unfold fsMaxFiles at hi
  refine ⟨by omega,?_⟩
  intro a ha
  apply h
  unfold entryAddr
  omega

theorem sameEntry_of_ne {dir dir' : Mem} {i j : ℕ} (hij : j ≠ i)
    (h : ∀ x, x < entryAddr i ∨ entryAddr i + 64 ≤ x → dir' x = dir x) : SameEntry dir dir' j := by
  intro x h1 h2
  apply h
  unfold entryAddr at *
  omega

/-- The entry of `name` is stored: its content is the new extent, all other names keep theirs. -/
theorem volume_commit {N slot start size : ℕ} {d d' : Disk Sector} {name : Name} (h : Volume N d)
    (hslot : slot < fsMaxFiles) (hold : Active (dirOf d) slot → Matches (dirOf d) name.val slot)
    (hfree : ∀ j < fsMaxFiles, j ≠ slot → ¬ Matches (dirOf d) name.val j)
    (hN : N ≤ 2^28) (hstart : fsDataLba ≤ start) (hstop : start + sectorsOf size ≤ N) (hsize : size + 511 < 2^32)
    (hd : DirOnly d d') (hdir : dirOf d' = setEntry (dirOf d) slot name.val start size) :
    Volume N d' ∧ fileOf d' name.val = some (extent d start size) ∧
      ∀ other : Name, other ≠ name → fileOf d' other.val = fileOf d other.val := by
  have hsame : ∀ j < fsMaxFiles, j ≠ slot → SameEntry (dirOf d) (dirOf d') j := by
    intro j _ hj
    rw [hdir]
    exact sameEntry_of_ne hj fun x hx => setEntry_of_outside hx
  have hdata : ∀ x, fsDataLba ≤ x → d' x = d x := fun x hx => hd x (Or.inr hx)
  have hm : Matches (dirOf d') name.val slot := hdir ▸ setEntry_matches
  have hs : startLba (dirOf d') slot = start := by
    rw [hdir]
    exact setEntry_startLba (by omega)
  have hz : fileSize (dirOf d') slot = size := by
    rw [hdir]
    exact setEntry_fileSize (by omega)
  have hvol : Volume N d' := by
    apply h.replace hd.super hsame
    intro _
    refine ⟨⟨by rw [hs]; exact hstart,by rw [hs,hz]; exact hstop,by rw [hz]; exact hsize⟩,name,hm,hfree⟩
  refine ⟨hvol,?_,?_⟩
  · rw [hvol.fileOf_some name hslot hm,hs,hz,extent_congr hsize]
    intro x hx _
    exact hdata x (hstart.trans hx)
  · intro other hne
    apply h.fileOf_other hdata hsame
    · intro ho
      exact hne (matches_unique ho (hold ho.1))
    · intro ho
      exact hne (matches_unique ho hm)

/-! ## Deleting an entry -/

/-- `e->flags = 1u`. -/
theorem volume_erase {N i : ℕ} {d d' : Disk Sector} {name : Name} (h : Volume N d) (hi : i < fsMaxFiles)
    (hm : Matches (dirOf d) name.val i) (hd : DirOnly d d') (hdir : dirOf d' = write32 (dirOf d) (entryAddr i+40) 1) :
    Volume N d' ∧ fileOf d' name.val = none ∧
      ∀ other : Name, other ≠ name → fileOf d' other.val = fileOf d other.val := by
  have hsame : ∀ j < fsMaxFiles, j ≠ i → SameEntry (dirOf d) (dirOf d') j := by
    intro j _ hj
    rw [hdir]
    exact sameEntry_of_ne hj fun x hx => write32_of_outside _ (by omega)
  have hinactive : ¬ Active (dirOf d') i := by
    rintro ⟨_,hf⟩
    apply hf
    rw [hdir,flags,read32_write32_same,Nat.mod_eq_of_lt (by decide)]
  refine ⟨h.replace hd.super hsame (fun ha => absurd ha hinactive),?_,?_⟩
  · rw [fileOf_eq_none]
    intro j hj hmj
    by_cases hji : j = i
    · subst hji
      exact hinactive hmj.1
    · exact hji (h.unique j hj i hi name (((hsame j hj hji).matches name).mp hmj) hm)
  · intro other hne
    apply h.fileOf_other (fun x hx => hd x (Or.inr hx)) hsame
    · intro ho
      exact hne (matches_unique ho hm)
    · intro ho
      exact hinactive ho.1

/-! ## The scan of `fs_write_new` -/

/-- The end of the highest active extent, at least the start of the data area. -/
def highestEnd (dir : Mem) : ℕ :=
  (((List.range fsMaxFiles).filter (fun i => Active dir i)).map (endLba dir)).foldl max fsDataLba

theorem foldl_max_le_iff (l : List ℕ) (b n : ℕ) : l.foldl max b ≤ n ↔ b ≤ n ∧ ∀ x ∈ l, x ≤ n := by
  induction l generalizing b with
  | nil => simp
  | cons x l ih =>
    rw [List.foldl_cons,ih,max_le_iff,List.forall_mem_cons,and_assoc]

theorem highestEnd_le_iff {dir : Mem} {n : ℕ} : highestEnd dir ≤ n ↔
    fsDataLba ≤ n ∧ ∀ i < fsMaxFiles, Active dir i → endLba dir i ≤ n := by
  unfold highestEnd
  rw [foldl_max_le_iff,List.forall_mem_map]
  simp only [List.mem_filter,List.mem_range,decide_eq_true_eq,and_imp]

section Scan
variable {dir : Mem} {name : Bytes}

theorem scanEntry_next (acc : Scan) (i : ℕ) : (scanEntry dir name acc i).nextDataLba =
    if Active dir i then max acc.nextDataLba (endLba dir i) else acc.nextDataLba := by
  unfold scanEntry
  by_cases ha : Active dir i
  · rw [if_pos ha,if_pos ha]
    by_cases hm : strcmpEq dir (entryAddr i) name
    · simp only [if_pos hm]
      split
      · dsimp only
        omega
      · dsimp only at *
        omega
    · simp only [if_neg hm]
      split
      · dsimp only
        omega
      · omega
  · rw [if_neg ha,if_neg ha]
    split <;> rfl

theorem scanDir_next (dir : Mem) (name : Bytes) : (scanDir dir name).nextDataLba = highestEnd dir := by
  have hfold : ∀ (l : List ℕ) (acc : Scan), (l.foldl (scanEntry dir name) acc).nextDataLba =
      ((l.filter (fun i => Active dir i)).map (endLba dir)).foldl max acc.nextDataLba := by
    intro l
    induction l with
    | nil => intro acc; rfl
    | cons i l ih =>
      intro acc
      rw [List.foldl_cons,ih,scanEntry_next]
      by_cases ha : Active dir i
      · simp [ha]
      · simp [ha]
  exact hfold _ _

/-- An entry with another name, or none. -/
theorem scanEntry_other (acc : Scan) {i : ℕ} (hm : ¬ Matches dir name i) :
    (scanEntry dir name acc i).isOverwrite = acc.isOverwrite ∧
      (scanEntry dir name acc i).target = if Active dir i then acc.target else acc.target.or (some i) := by
  unfold scanEntry
  by_cases ha : Active dir i
  · have hs : ¬ strcmpEq dir (entryAddr i) name := fun hs => hm ⟨ha,hs⟩
    simp only [if_pos ha,if_neg hs]
    split <;> exact ⟨rfl,rfl⟩
  · simp only [if_neg ha]
    cases ht : acc.target with
    | none => exact ⟨rfl,rfl⟩
    | some t => exact ⟨rfl,ht⟩

theorem scanEntry_match {acc : Scan} {i : ℕ} (hm : Matches dir name i) :
    (scanEntry dir name acc i).isOverwrite = true ∧ (scanEntry dir name acc i).target = some i := by
  unfold scanEntry
  simp only [if_pos hm.1,if_pos hm.2]
  split <;> exact ⟨rfl,rfl⟩

theorem scan_new {l : List ℕ} (acc : Scan) (hl : ∀ i ∈ l, ¬ Matches dir name i) :
    (l.foldl (scanEntry dir name) acc).isOverwrite = acc.isOverwrite ∧
      (l.foldl (scanEntry dir name) acc).target = acc.target.or (l.find? (fun i => ¬ Active dir i)) := by
  induction l generalizing acc with
  | nil => exact ⟨rfl,(Option.or_none).symm⟩
  | cons i l ih =>
    obtain ⟨h1,h2⟩ := ih (scanEntry dir name acc i) (fun j hj => hl j (List.mem_cons_of_mem _ hj))
    obtain ⟨h3,h4⟩ := scanEntry_other acc (hl i List.mem_cons_self)
    rw [List.foldl_cons,h1,h2,h3,h4]
    refine ⟨rfl,?_⟩
    by_cases ha : Active dir i
    · simp [ha]
    · rw [List.find?_cons_of_pos (by simpa using ha),if_neg ha]
      cases acc.target <;> rfl

/-- Once the entry of the name has been seen, the target stays. -/
theorem scan_kept {l : List ℕ} {i : ℕ} (acc : Scan) (hacc : acc.isOverwrite = true ∧ acc.target = some i)
    (hl : ∀ j ∈ l, Matches dir name j → j = i) :
    (l.foldl (scanEntry dir name) acc).isOverwrite = true ∧ (l.foldl (scanEntry dir name) acc).target = some i := by
  induction l generalizing acc with
  | nil => exact hacc
  | cons j l ih =>
    rw [List.foldl_cons]
    apply ih
    · by_cases hm : Matches dir name j
      · rw [← hl j List.mem_cons_self hm]
        exact scanEntry_match hm
      · obtain ⟨h1,h2⟩ := scanEntry_other acc hm
        rw [h1,h2,hacc.2]
        exact ⟨hacc.1,ite_self _⟩
    · exact fun k hk => hl k (List.mem_cons_of_mem _ hk)

theorem scan_overwrite {l : List ℕ} {i : ℕ} (acc : Scan) (hi : i ∈ l) (hm : Matches dir name i)
    (hl : ∀ j ∈ l, Matches dir name j → j = i) :
    (l.foldl (scanEntry dir name) acc).isOverwrite = true ∧ (l.foldl (scanEntry dir name) acc).target = some i := by
  induction l generalizing acc with
  | nil => cases hi
  | cons j l ih =>
    have hrest : ∀ k ∈ l, Matches dir name k → k = i := fun k hk => hl k (List.mem_cons_of_mem _ hk)
    rw [List.foldl_cons]
    rcases List.mem_cons.mp hi with rfl | hi
    · exact scan_kept _ (scanEntry_match hm) hrest
    · exact ih _ hi hrest

end Scan

/-! ## The scan of a volume -/

section ScanVolume
variable {N : ℕ} {d : Disk Sector} (h : Volume N d)
include h

/-- The slot that the scan selects. -/
structure Selected (dir : Mem) (name : Name) (slot : ℕ) (isOverwrite : Bool) : Prop where
  lt : slot < fsMaxFiles
  free : Active dir slot → Matches dir name.val slot
  others : ∀ j < fsMaxFiles, j ≠ slot → ¬ Matches dir name.val j
  overwrite : isOverwrite = true ↔ Matches dir name.val slot

theorem scanDir_present {name : Name} {i : ℕ} (hi : i < fsMaxFiles) (hm : Matches (dirOf d) name.val i) :
    (scanDir (dirOf d) name.val).isOverwrite = true ∧ (scanDir (dirOf d) name.val).target = some i := by
  apply scan_overwrite _ (List.mem_range.mpr hi) hm
  intro j hj hmj
  exact h.unique j (List.mem_range.mp hj) i hi name hmj hm

omit h in
theorem scanDir_absent {name : Bytes} (hn : ∀ i < fsMaxFiles, ¬ Matches (dirOf d) name i) :
    (scanDir (dirOf d) name).isOverwrite = false ∧
      (scanDir (dirOf d) name).target = (List.range fsMaxFiles).find? (fun i => ¬ Active (dirOf d) i) := by
  have hs := scan_new ⟨none,false,fsDataLba⟩ (fun i hi => hn i (List.mem_range.mp hi))
  rw [Option.none_or] at hs
  exact hs

theorem scanDir_selected {name : Name} {slot : ℕ} (ht : (scanDir (dirOf d) name.val).target = some slot) :
    Selected (dirOf d) name slot (scanDir (dirOf d) name.val).isOverwrite := by
  by_cases hp : ∃ i, i < fsMaxFiles ∧ Matches (dirOf d) name.val i
  · obtain ⟨i,hi,hm⟩ := hp
    obtain ⟨ho,ht'⟩ := scanDir_present h hi hm
    rw [ht] at ht'
    cases ht'
    refine ⟨hi,fun _ => hm,?_,iff_of_true ho hm⟩
    intro j hj hne hmj
    exact hne (h.unique j hj slot hi name hmj hm)
  · have hn : ∀ i < fsMaxFiles, ¬ Matches (dirOf d) name.val i := fun i hi hm => hp ⟨i,hi,hm⟩
    obtain ⟨ho,ht'⟩ := scanDir_absent hn
    rw [ht] at ht'
    have hlt := List.mem_range.mp (List.mem_of_find?_eq_some ht'.symm)
    have hfree := List.find?_some ht'.symm
    simp only [decide_not,Bool.not_eq_true',decide_eq_false_iff_not] at hfree
    refine ⟨hlt,fun ha => absurd ha hfree,fun j hj _ => hn j hj,?_⟩
    rw [ho]
    exact iff_of_false (by decide) (hn slot hlt)

theorem scanDir_full (name : Name) : (scanDir (dirOf d) name.val).target = none ↔
    (∀ i < fsMaxFiles, Active (dirOf d) i) ∧ ∀ i < fsMaxFiles, ¬ Matches (dirOf d) name.val i := by
  by_cases hp : ∃ i, i < fsMaxFiles ∧ Matches (dirOf d) name.val i
  · obtain ⟨i,hi,hm⟩ := hp
    rw [(scanDir_present h hi hm).2]
    exact iff_of_false (by simp) (fun hn => hn.2 i hi hm)
  · have hn : ∀ i < fsMaxFiles, ¬ Matches (dirOf d) name.val i := fun i hi hm => hp ⟨i,hi,hm⟩
    rw [(scanDir_absent hn).2,List.find?_eq_none]
    simp only [List.mem_range,decide_not,Bool.not_eq_true',decide_eq_false_iff_not,not_not]
    exact ⟨fun ha => ⟨ha,hn⟩,fun ha => ha.1⟩

omit h in
theorem fsDataLba_le_highestEnd : fsDataLba ≤ highestEnd (dirOf d) := (highestEnd_le_iff.mp (le_refl _)).1

theorem endLba_eq (hN : N ≤ 2^28) {i : ℕ} (hi : i < fsMaxFiles) (ha : Active (dirOf d) i) :
    endLba (dirOf d) i = startLba (dirOf d) i + sectorsOf (fileSize (dirOf d) i) := by
  have hp := h.placed i hi ha
  exact Nat.mod_eq_of_lt (by have := hp.stop; omega)

theorem le_highestEnd (hN : N ≤ 2^28) {i : ℕ} (hi : i < fsMaxFiles) (ha : Active (dirOf d) i) :
    startLba (dirOf d) i + sectorsOf (fileSize (dirOf d) i) ≤ highestEnd (dirOf d) := by
  rw [← endLba_eq h hN hi ha]
  exact (highestEnd_le_iff.mp (le_refl _)).2 i hi ha

theorem highestEnd_le (hN : N ≤ 2^28) (hlba : fsDataLba ≤ N) : highestEnd (dirOf d) ≤ N := by
  refine highestEnd_le_iff.mpr ⟨hlba,?_⟩
  intro i hi ha
  rw [endLba_eq h hN hi ha]
  exact (h.placed i hi ha).stop

end ScanVolume

/-! ## Changes that no content depends on -/

section Unseen
variable {N : ℕ} {d d₁ : Disk Sector}

theorem magicOk_setNumFiles (sb : Sector) (n : ℕ) : magicOk (setNumFiles sb n) = magicOk sb := by
  have hbytes : (List.range 8).map (sectorMem (setNumFiles sb n)) = (List.range 8).map (sectorMem sb) := by
    apply List.map_congr_left
    intro a ha
    have hlt := List.mem_range.mp ha
    unfold setNumFiles
    rw [sectorMem_memSector _ _ (by omega),Nat.zero_add,write32_of_outside _ (by omega)]
  unfold magicOk
  rw [hbytes]

theorem dirOf_above (d : Disk Sector) (ss : List Sector) :
    dirOf (overwrite d (highestEnd (dirOf d)) ss) = dirOf d := by
  apply dirOf_congr
  intro x _ hx
  exact overwrite_of_outside (Or.inl (lt_of_lt_of_le hx fsDataLba_le_highestEnd))

/-- Sectors from the end of all extents on. -/
theorem volume_above (hN : N ≤ 2^28) (h : Volume N d) (ss : List Sector) :
    Volume N (overwrite d (highestEnd (dirOf d)) ss) ∧
      ∀ name, fileOf (overwrite d (highestEnd (dirOf d)) ss) name = fileOf d name := by
  have hdata : fsDataLba ≤ highestEnd (dirOf d) := fsDataLba_le_highestEnd
  have hbelow : ∀ x < highestEnd (dirOf d), overwrite d (highestEnd (dirOf d)) ss x = d x :=
    fun x hx => overwrite_of_outside (Or.inl hx)
  apply h.congr
  · rw [hbelow _ (lt_of_lt_of_le (by decide) hdata)]
    exact h.magic
  · exact dirOf_above d ss
  · intro i hi ha x _ hx
    exact hbelow x (lt_of_lt_of_le hx (le_highestEnd h hN hi ha))

/-- The superblock with another counter. -/
theorem volume_super (h : Volume N d) {sb : Sector} (hsb : magicOk sb = true) (j : ℕ) :
    Volume N (overwrite d fsSuperLba ([sb].take j)) ∧
      ∀ name, fileOf (overwrite d fsSuperLba ([sb].take j)) name = fileOf d name := by
  have hother : ∀ x, 130 ≤ x → overwrite d fsSuperLba ([sb].take j) x = d x := by
    intro x hx
    apply overwrite_of_outside
    have hlen : ([sb].take j).length ≤ 1 := by simp
    simp only [fsSuperLba]
    omega
  apply h.congr
  · cases j with
    | zero => exact h.magic
    | succ j =>
      rw [List.take_succ_cons,List.take_nil,overwrite,overwrite,Function.update_self]
      exact hsb
  · apply dirOf_congr
    intro x hx _
    exact hother x hx
  · intro i hi ha x hx _
    have hs := (h.placed i hi ha).start
    simp only [fsDataLba] at hs
    exact hother x (by omega)

/-- The directory written back unchanged. -/
theorem volume_sameDir (h : Volume N d) (hd : DirOnly d d₁) (hdir : dirOf d₁ = dirOf d) :
    Volume N d₁ ∧ ∀ name, fileOf d₁ name = fileOf d name := by
  apply h.congr
  · rw [hd.super]
    exact h.magic
  · exact hdir
  · intro i hi ha x hx _
    exact hd x (Or.inr ((h.placed i hi ha).start.trans hx))

/-- The data behind all extents, then the entry that names them. -/
theorem volume_written (hN : N ≤ 2^28) (h : Volume N d) {d₂ : Disk Sector} {slot : ℕ} {name : Name} {data : Bytes}
    {isOverwrite : Bool} (hsel : Selected (dirOf d) name slot isOverwrite) (hlen : data.length + 511 < 2^32)
    (hfit : highestEnd (dirOf d) + sectorsOf data.length ≤ N)
    (hd₁ : d₁ = overwrite d (highestEnd (dirOf d)) (dataSectors (sectorsOf data.length) data))
    (hd₂ : DirOnly d₁ d₂)
    (hdir₂ : dirOf d₂ = setEntry (dirOf d) slot name.val (highestEnd (dirOf d)) data.length) :
    Volume N d₂ ∧ fileOf d₂ name.val = some data ∧
      ∀ other : Name, other ≠ name → fileOf d₂ other.val = fileOf d other.val := by
  obtain ⟨hv,hf⟩ := volume_above hN h (dataSectors (sectorsOf data.length) data)
  have hdir := dirOf_above d (dataSectors (sectorsOf data.length) data)
  rw [← hd₁] at hv hf hdir
  rw [← hdir] at hsel
  obtain ⟨hv₂,hn,ho⟩ := volume_commit hv hsel.lt hsel.free hsel.others hN fsDataLba_le_highestEnd hfit hlen hd₂
    (by rw [hdir]; exact hdir₂)
  refine ⟨hv₂,?_,?_⟩
  · rw [hn,hd₁,extent_overwrite d _ hlen]
  · intro other hne
    rw [ho other hne,hf]

end Unseen

/-! ## Formatting -/

theorem magicOk_blankSuper : magicOk blankSuper = true := by decide

theorem numFiles_blankSuper : numFiles blankSuper = 0 := by decide

/-- The disk that a completed `fs_format` leaves. -/
structure Formatted (d : Disk Sector) : Prop where
  super : d fsSuperLba = blankSuper
  dir : dirOf d = fun _ => 0

theorem not_active_blank (i : ℕ) : ¬ Active (fun _ => 0) i := fun h => h.1 rfl

theorem Formatted.volume {d : Disk Sector} (h : Formatted d) (N : ℕ) : Volume N d := by
  constructor
  · rw [h.super]
    exact magicOk_blankSuper
  · intro i _ ha
    rw [h.dir] at ha
    exact absurd ha (not_active_blank i)
  · intro i _ ha
    rw [h.dir] at ha
    exact absurd ha (not_active_blank i)
  · intro i _ j _ name hm
    rw [h.dir] at hm
    exact absurd hm.1 (not_active_blank i)

theorem Formatted.fileOf {d : Disk Sector} (h : Formatted d) (name : Bytes) : fileOf d name = none := by
  rw [fileOf_eq_none,h.dir]
  intro i _ hm
  exact not_active_blank i hm.1

theorem formatted_overwrite {d : Disk Sector} (h : d fsSuperLba = blankSuper) {j : ℕ} (hj : 8 ≤ j) :
    Formatted (overwrite d fsDirLba ((dirSectors (fun _ => 0)).take j)) := by
  constructor
  · rw [(dirOnly_overwrite d _ j).super]
    exact h
  · funext a
    by_cases ha : a < 4096
    · rw [dirOf_overwrite d _ j ha,if_pos (by omega)]
    · exact dirOf_high _ (by omega)

section Format
variable {N : ℕ} (hN : N ≤ 2^28)
include hN

theorem run_fsFormat (hlba : fsDataLba ≤ N) (d : Disk Sector) :
    ∃ d', run (drive N) fsFormat d = (0,d') ∧ Formatted d' := by
  have hlen : (dirSectors (fun _ => 0)).length = 8 := by simp [dirSectors,fsDirSectors]
  simp only [fsDataLba] at hlba
  have hs := run_ataWriteSectors hN [blankSuper] d (show fsSuperLba ≤ N by simp only [fsSuperLba]; omega)
  have hd := fun d => run_ataWriteSectors hN (dirSectors (fun _ => 0)) d
    (show fsDirLba ≤ N by simp only [fsDirLba]; omega)
  refine ⟨_,?_,formatted_overwrite (d := overwrite d fsSuperLba ([blankSuper].take (N-fsSuperLba)))
    (j := N-fsDirLba) ?_ ?_⟩
  · rw [fsFormat,run_bind,writeSuper,hs,decide_eq_true (by simp only [fsSuperLba,List.length_singleton]; omega)]
    dsimp only
    rw [if_pos rfl,run_bind,writeDir,hd,decide_eq_true (by rw [hlen]; simp only [fsDirLba]; omega)]
    dsimp only
    rw [if_pos rfl,run_pure]
  · obtain ⟨n,hn⟩ : ∃ n, N - fsSuperLba = n+1 := ⟨N-fsSuperLba-1,by simp only [fsSuperLba]; omega⟩
    rw [hn,List.take_succ_cons,List.take_nil,overwrite,overwrite,Function.update_self]
  · simp only [fsDirLba]
    omega

theorem always_fsFormat (d : Disk Sector) :
    Always (drive N) (fun _ => True) (fun r d' => r = 0 → Formatted d') fsFormat d := by
  have hlen : (dirSectors (fun _ => 0)).length = 8 := by simp [dirSectors,fsDirSectors]
  unfold fsFormat
  apply (always_ataWriteSectors hN (fun _ => trivial)).bind
  rintro ok d₁ _ ⟨j,rfl,hj⟩
  cases ok with
  | false => exact Always.pure trivial fun h => absurd h (by decide)
  | true =>
    have hs : overwrite d fsSuperLba ([blankSuper].take j) fsSuperLba = blankSuper := by
      rw [List.take_of_length_le (hj rfl).1,overwrite,overwrite,Function.update_self]
    apply (always_ataWriteSectors hN (fun _ => trivial)).bind
    rintro ok d₂ _ ⟨i,rfl,hi⟩
    cases ok with
    | false => exact Always.pure trivial fun h => absurd h (by decide)
    | true => exact Always.pure trivial fun _ => formatted_overwrite hs (hlen ▸ (hi rfl).1)

end Format

end VesperOS.DirectoryEdits
