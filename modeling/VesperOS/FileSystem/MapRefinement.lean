import VesperOS.FileSystem.DirectoryEdits
import Mathlib.Data.Finmap
import Mathlib.Data.Finset.Card

/-! # VesperFS as a finite map

On a drive without faults the volume represents a finite map from names to byte
strings, and each operation of `fs.h` is an operation of the map. A write is
refused only when the directory is full or the data do not fit behind the highest
active extent.
-/
namespace VesperOS.MapRefinement
open ByteMemory DiskProgram VesperFs DiskVolume Transfers DirectoryEdits

abbrev FileMap := Finmap (fun _ : Name => Bytes)

/-- The disk holds the map, and the superblock counts its names. -/
structure Represents (d : Disk Sector) (m : FileMap) : Prop where
  lookup : ∀ name : Name, m.lookup name = fileOf d name.val
  count : numFiles (d fsSuperLba) = m.keys.card

/-! ## Names and slots -/

section Slots
variable {N : ℕ} {d : Disk Sector} {m : FileMap} (h : Volume N d) (hm : Represents d m)
include hm

theorem mem_iff_matches (name : Name) : name ∈ m ↔ ∃ i < fsMaxFiles, Matches (dirOf d) name.val i := by
  have hn : name ∉ m ↔ ∀ i < fsMaxFiles, ¬ Matches (dirOf d) name.val i := by
    rw [← Finmap.lookup_eq_none,hm.lookup,fileOf_eq_none]
  constructor
  · intro hin
    by_contra hc
    exact hn.mpr (fun i hi hmi => hc ⟨i,hi,hmi⟩) hin
  · rintro ⟨i,hi,hmi⟩
    by_contra hc
    exact hn.mp hc i hi hmi

include h

/-- The names of the map are those of the active entries. -/
theorem card_keys : m.keys.card = ((Finset.range fsMaxFiles).filter (fun i => Active (dirOf d) i)).card := by
  symm
  have hname : ∀ i ∈ (Finset.range fsMaxFiles).filter (fun i => Active (dirOf d) i),
      ∃ name : Name, Matches (dirOf d) name.val i := by
    intro i hi
    obtain ⟨hlt,ha⟩ := Finset.mem_filter.mp hi
    exact h.named i (Finset.mem_range.mp hlt) ha
  choose f hf using hname
  apply Finset.card_bij f
  · intro i hi
    rw [Finmap.mem_keys,mem_iff_matches hm]
    exact ⟨i,Finset.mem_range.mp (Finset.mem_filter.mp hi).1,hf i hi⟩
  · intro i hi j hj he
    have hmj := hf j hj
    rw [← he] at hmj
    exact h.unique i (Finset.mem_range.mp (Finset.mem_filter.mp hi).1) j
      (Finset.mem_range.mp (Finset.mem_filter.mp hj).1) _ (hf i hi) hmj
  · intro name hin
    obtain ⟨i,hi,hmi⟩ := (mem_iff_matches hm name).mp (Finmap.mem_keys.mp hin)
    have hmem : i ∈ (Finset.range fsMaxFiles).filter (fun i => Active (dirOf d) i) :=
      Finset.mem_filter.mpr ⟨Finset.mem_range.mpr hi,hmi.1⟩
    exact ⟨i,hmem,matches_unique (hf i hmem) hmi⟩

theorem card_keys_le : m.keys.card ≤ fsMaxFiles := by
  rw [card_keys h hm]
  exact (Finset.card_filter_le _ _).trans_eq (Finset.card_range _)

theorem full_iff : m.keys.card = fsMaxFiles ↔ ∀ i < fsMaxFiles, Active (dirOf d) i := by
  rw [card_keys h hm]
  have hc : fsMaxFiles = (Finset.range fsMaxFiles).card := (Finset.card_range _).symm
  constructor
  · intro he i hi
    have hall := Finset.card_filter_eq_iff.mp (he.trans hc)
    exact hall i (Finset.mem_range.mpr hi)
  · intro ha
    rw [Finset.card_filter_eq_iff.mpr (fun i hi => ha i (Finset.mem_range.mp hi)),Finset.card_range]

end Slots

/-! ## The superblock counter -/

theorem numFiles_setNumFiles (sb : Sector) {n : ℕ} (hn : n < 2^32) : numFiles (setNumFiles sb n) = n := by
  have hw : numFiles (setNumFiles sb n) = read32 (write32 (sectorMem sb) 12 n) 12 := by
    unfold numFiles setNumFiles
    apply read32_congr
    intro x h1 h2
    rw [sectorMem_memSector _ _ (by omega),Nat.zero_add]
  rw [hw,read32_write32_same,Nat.mod_eq_of_lt hn]

theorem card_keys_insert (m : FileMap) (name : Name) (data : Bytes) :
    (m.insert name data).keys.card = if name ∈ m then m.keys.card else m.keys.card + 1 := by
  have hk : (m.insert name data).keys = insert name m.keys := by
    ext other
    rw [Finmap.mem_keys,Finmap.mem_insert,Finset.mem_insert,Finmap.mem_keys]
  rw [hk]
  split
  · rw [Finset.insert_eq_of_mem (Finmap.mem_keys.mpr ‹_›)]
  · rw [Finset.card_insert_of_notMem (fun hin => absurd (Finmap.mem_keys.mp hin) ‹_›)]

theorem card_keys_erase {m : FileMap} {name : Name} (hin : name ∈ m) :
    (m.erase name).keys.card = m.keys.card - 1 := by
  rw [Finmap.keys_erase,Finset.card_erase_of_mem (Finmap.mem_keys.mpr hin)]

/-- The superblock rewritten with a count. -/
theorem represents_super {N : ℕ} {d : Disk Sector} {m : FileMap} (h : Volume N d) (hl : ∀ name : Name, m.lookup name = fileOf d name.val) {sb : Sector}
    (hsb : magicOk sb = true) (hc : numFiles sb = m.keys.card) :
    Volume N (Function.update d fsSuperLba sb) ∧ Represents (Function.update d fsSuperLba sb) m := by
  obtain ⟨hv,hf⟩ := volume_super h hsb 1
  refine ⟨hv,?_,?_⟩
  · intro name
    exact (hl name).trans (hf name.val).symm
  · rw [Function.update_self]
    exact hc

section Operations
variable {N : ℕ} (hN : N ≤ 2^28) (hlba : fsDataLba ≤ N) {d : Disk Sector} {m : FileMap}
include hN hlba

theorem run_writeSuper (sb : Sector) (d : Disk Sector) :
    run (drive N) (writeSuper sb) d = (true,Function.update d fsSuperLba sb) := by
  simp only [fsDataLba] at hlba
  have hrun := run_ataWriteSectors hN [sb] d (show fsSuperLba ≤ N by simp only [fsSuperLba]; omega)
  obtain ⟨n,hn⟩ : ∃ n, N - fsSuperLba = n+1 := ⟨N-fsSuperLba-1,by simp only [fsSuperLba]; omega⟩
  rw [hn,List.take_succ_cons,List.take_nil,
    decide_eq_true (by simp only [fsSuperLba,List.length_singleton]; omega)] at hrun
  exact hrun

/-- No free entry and none with the name, or no room behind the highest extent. -/
def Refused (N : ℕ) (d : Disk Sector) (m : FileMap) (name : Name) (data : Bytes) : Prop :=
  (m.keys.card = fsMaxFiles ∧ name ∉ m) ∨ N < highestEnd (dirOf d) + sectorsOf data.length

theorem run_fsWriteNew_full {name : Name} {data : Bytes} (h : Volume N d)
    (ht : (scanDir (dirOf d) name.val).target = none) : run (drive N) (fsWriteNew name.val data) d = (-1,d) := by
  rw [fsWriteNew,if_neg name.property.1,run_bind,run_readSuper hN d (lt_of_lt_of_le (by decide) hlba)]
  dsimp only
  rw [run_bind,run_readDir hN d hlba]
  dsimp only
  rw [if_neg (by rw [h.magic]; decide),ht]
  rfl

theorem run_fsWriteNew_data {name : Name} {data : Bytes} {slot : ℕ} (h : Volume N d)
    (ht : (scanDir (dirOf d) name.val).target = some slot) :
    run (drive N) (fsWriteNew name.val data) d =
      run (drive N) (if highestEnd (dirOf d) + sectorsOf data.length ≤ N then do
          if ← writeDir (setEntry (dirOf d) slot name.val (highestEnd (dirOf d)) data.length) then
            if ← writeSuper (if (scanDir (dirOf d) name.val).isOverwrite then d fsSuperLba
                else setNumFiles (d fsSuperLba) (numFiles (d fsSuperLba)+1)) then pure 0 else pure (-1)
          else pure (-1)
        else pure (-1))
        (overwrite d (highestEnd (dirOf d))
          ((dataSectors (sectorsOf data.length) data).take (N-highestEnd (dirOf d)))) := by
  have hnext := highestEnd_le h hN hlba
  have hsectors : sectorsOf data.length ≤ 2^23 := by
    unfold sectorsOf
    omega
  rw [fsWriteNew,if_neg name.property.1,run_bind,run_readSuper hN d (lt_of_lt_of_le (by decide) hlba)]
  dsimp only
  rw [run_bind,run_readDir hN d hlba]
  dsimp only
  rw [if_neg (by rw [h.magic]; decide),ht]
  dsimp only
  rw [scanDir_next,writeData_eq data (by omega),Nat.add_zero,run_bind,run_ataWriteSectors hN _ _ hnext,
    length_dataSectors]
  dsimp only
  by_cases hfit : highestEnd (dirOf d) + sectorsOf data.length ≤ N
  · rw [decide_eq_true hfit,if_pos rfl,if_pos hfit]
  · rw [decide_eq_false hfit,if_neg (by decide),if_neg hfit]

/-- The second half of `fs_write_new`: the directory and the superblock. -/
theorem commit_spec (h : Volume N d) (hm : Represents d m) {name : Name} {data : Bytes} {slot : ℕ}
    {isOverwrite : Bool} (hlen : data.length + 511 < 2^32) (hsel : Selected (dirOf d) name slot isOverwrite)
    (hfit : highestEnd (dirOf d) + sectorsOf data.length ≤ N) :
    let out := run (drive N) (do
        if ← writeDir (setEntry (dirOf d) slot name.val (highestEnd (dirOf d)) data.length) then
          if ← writeSuper (if isOverwrite then d fsSuperLba
              else setNumFiles (d fsSuperLba) (numFiles (d fsSuperLba)+1)) then pure (0 : ℤ) else pure (-1)
        else pure (-1))
      (overwrite d (highestEnd (dirOf d)) (dataSectors (sectorsOf data.length) data))
    Volume N out.2 ∧ out.1 = 0 ∧ Represents out.2 (m.insert name data) := by
  have hdir := dirOf_above d (dataSectors (sectorsOf data.length) data)
  have hone : OneSector (dirOf (overwrite d (highestEnd (dirOf d)) (dataSectors (sectorsOf data.length) data)))
      (setEntry (dirOf d) slot name.val (highestEnd (dirOf d)) data.length) (slot/8) := by
    rw [hdir]
    exact oneSector_of_entry hsel.lt fun x hx => setEntry_of_outside hx
  obtain ⟨d₂,hrun,hd₂,hdir₂⟩ := run_writeDir hN hone hlba
  obtain ⟨hv₂,hn,ho⟩ := volume_written hN h hsel hlen hfit rfl hd₂ hdir₂
  have hl : ∀ other : Name, (m.insert name data).lookup other = fileOf d₂ other.val := by
    intro other
    by_cases hne : other = name
    · subst hne
      rw [Finmap.lookup_insert,hn]
    · rw [Finmap.lookup_insert_of_ne _ hne,ho other hne]
      exact hm.lookup other
  have hover : isOverwrite = true ↔ name ∈ m := by
    rw [hsel.overwrite,mem_iff_matches hm]
    constructor
    · intro hmatch
      exact ⟨slot,hsel.lt,hmatch⟩
    · rintro ⟨i,hi,hmi⟩
      by_contra hc
      exact hsel.others i hi (fun he => hc (he ▸ hmi)) hmi
  have hcard := card_keys_le h hm
  have hsb : magicOk (if isOverwrite = true then d fsSuperLba
      else setNumFiles (d fsSuperLba) (numFiles (d fsSuperLba)+1)) = true := by
    split
    · exact h.magic
    · rw [magicOk_setNumFiles]
      exact h.magic
  have hcount : numFiles (if isOverwrite = true then d fsSuperLba
      else setNumFiles (d fsSuperLba) (numFiles (d fsSuperLba)+1)) = (m.insert name data).keys.card := by
    simp only [fsMaxFiles] at hcard
    rw [card_keys_insert]
    by_cases ho : isOverwrite = true
    · rw [if_pos ho,if_pos (hover.mp ho),hm.count]
    · rw [if_neg ho,if_neg (fun hin => ho (hover.mpr hin)),hm.count,numFiles_setNumFiles _ (by omega)]
  obtain ⟨hv,hr⟩ := represents_super hv₂ hl hsb hcount
  dsimp only
  rw [run_bind,hrun]
  dsimp only
  rw [if_pos rfl,run_bind,run_writeSuper hN hlba]
  exact ⟨hv,rfl,hr⟩

theorem fsWriteNew_spec (h : Volume N d) (hm : Represents d m) (name : Name) {data : Bytes}
    (hlen : data.length + 511 < 2^32) :
    Volume N (run (drive N) (fsWriteNew name.val data) d).2 ∧
      (((run (drive N) (fsWriteNew name.val data) d).1 = 0 ∧ ¬ Refused N d m name data ∧
          Represents (run (drive N) (fsWriteNew name.val data) d).2 (m.insert name data)) ∨
        ((run (drive N) (fsWriteNew name.val data) d).1 = -1 ∧ Refused N d m name data ∧
          Represents (run (drive N) (fsWriteNew name.val data) d).2 m)) := by
  have habsent : name ∉ m ↔ ∀ i < fsMaxFiles, ¬ Matches (dirOf d) name.val i := by
    rw [← Finmap.lookup_eq_none,hm.lookup,fileOf_eq_none]
  cases ht : (scanDir (dirOf d) name.val).target with
  | none =>
    rw [run_fsWriteNew_full hN hlba h ht]
    have hfull := (scanDir_full h name).mp ht
    exact ⟨h,Or.inr ⟨rfl,Or.inl ⟨(full_iff h hm).mpr hfull.1,habsent.mpr hfull.2⟩,hm⟩⟩
  | some slot =>
    have hsel := scanDir_selected h ht
    have hroom : ¬ (m.keys.card = fsMaxFiles ∧ name ∉ m) := by
      rintro ⟨hc,hn⟩
      have hnone := (scanDir_full h name).mpr ⟨(full_iff h hm).mp hc,habsent.mp hn⟩
      rw [ht] at hnone
      cases hnone
    rw [run_fsWriteNew_data hN hlba h ht]
    by_cases hfit : highestEnd (dirOf d) + sectorsOf data.length ≤ N
    · rw [if_pos hfit,List.take_of_length_le (by rw [length_dataSectors]; omega)]
      obtain ⟨hv,hr,hrep⟩ := commit_spec hN hlba h hm hlen hsel hfit
      exact ⟨hv,Or.inl ⟨hr,fun hrefused => hrefused.elim hroom (by omega),hrep⟩⟩
    · -- the data ran past the end of the drive: no content changed
      obtain ⟨hv,hf⟩ := volume_above hN h
        ((dataSectors (sectorsOf data.length) data).take (N-highestEnd (dirOf d)))
      rw [if_neg hfit,run_pure]
      refine ⟨hv,Or.inr ⟨rfl,Or.inr (by omega),?_,?_⟩⟩
      · intro other
        rw [hf]
        exact hm.lookup other
      · have hsuper : fsSuperLba < highestEnd (dirOf d) :=
          lt_of_lt_of_le (by decide : fsSuperLba < fsDataLba) fsDataLba_le_highestEnd
        dsimp only
        rw [overwrite_of_outside (Or.inl hsuper)]
        exact hm.count

theorem fsDelete_spec (h : Volume N d) (hm : Represents d m) (name : Name) :
    Volume N (run (drive N) (fsDelete name.val) d).2 ∧
      ((name ∈ m ∧ (run (drive N) (fsDelete name.val) d).1 = 0 ∧
          Represents (run (drive N) (fsDelete name.val) d).2 (m.erase name)) ∨
        (name ∉ m ∧ run (drive N) (fsDelete name.val) d = (-1,d))) := by
  have hcard := card_keys_le h hm
  simp only [fsMaxFiles] at hcard
  rw [fsDelete,if_neg name.property.1,run_bind,run_readDir hN d hlba]
  dsimp only
  cases hf : findEntry (dirOf d) name.val with
  | none =>
    have hn : name ∉ m := by
      rw [← Finmap.lookup_eq_none,hm.lookup,fileOf_eq_none]
      exact findEntry_none.mp hf
    exact ⟨h,Or.inr ⟨hn,rfl⟩⟩
  | some i =>
    obtain ⟨hi,hmi⟩ := findEntry_some hf
    have hin : name ∈ m := (mem_iff_matches hm name).mpr ⟨i,hi,hmi⟩
    have hpos : 0 < m.keys.card := Finset.card_pos.mpr ⟨name,Finmap.mem_keys.mpr hin⟩
    have hone : OneSector (dirOf d) (write32 (dirOf d) (entryAddr i+40) 1) (i/8) :=
      oneSector_of_entry hi fun x hx => write32_of_outside _ (by omega)
    obtain ⟨d₁,hrun,hd₁,hdir₁⟩ := run_writeDir hN hone hlba
    obtain ⟨hv₁,hn,ho⟩ := volume_erase h hi hmi hd₁ hdir₁
    have hl : ∀ other : Name, (m.erase name).lookup other = fileOf d₁ other.val := by
      intro other
      by_cases hne : other = name
      · subst hne
        rw [Finmap.lookup_erase,hn]
      · rw [Finmap.lookup_erase_ne hne,ho other hne]
        exact hm.lookup other
    have hnum : numFiles (d₁ fsSuperLba) = m.keys.card := by rw [hd₁.super,hm.count]
    have hsb : magicOk (setNumFiles (d₁ fsSuperLba) (numFiles (d₁ fsSuperLba)-1)) = true := by
      rw [magicOk_setNumFiles]
      exact hv₁.magic
    have hcount : numFiles (setNumFiles (d₁ fsSuperLba) (numFiles (d₁ fsSuperLba)-1)) =
        (m.erase name).keys.card := by
      rw [numFiles_setNumFiles _ (by omega),hnum,card_keys_erase hin]
    obtain ⟨hv,hr⟩ := represents_super hv₁ hl hsb hcount
    dsimp only
    rw [run_bind,hrun]
    dsimp only
    rw [if_pos rfl,run_bind,run_readSuper hN d₁ (lt_of_lt_of_le (by decide : fsSuperLba < fsDataLba) hlba)]
    dsimp only
    rw [if_pos (by omega),run_bind,run_writeSuper hN hlba]
    exact ⟨hv,Or.inl ⟨hin,rfl,hr⟩⟩

end Operations

/-! ## Reading -/

/-- Calls of `fs_read` with these lengths, one after the other: all bytes delivered. -/
def fsReads (f : File) : List ℕ → FsProg Bytes
  | [] => pure []
  | len :: lens => do
    let (out,f) ← fsRead f len
    let rest ← fsReads f lens
    pure (out++rest)

theorem length_extent (d : Disk Sector) (start size : ℕ) : (extent d start size).length = size := by
  simp [extent]

/-- The part of one sector that a turn of the loop delivers. -/
theorem sectors_chunk (g : ℕ → Sector) (size pos chunk : ℕ) (hs : pos + chunk ≤ size) (hc : pos%512 + chunk ≤ 512) :
    (List.range chunk).map (fun k => sectorMem (g (pos/512)) (pos%512+k)) =
      (((List.range size).map (fun k => sectorMem (g (k/512)) (k%512))).drop pos).take chunk := by
  apply List.ext_getElem
  · simp only [List.length_map,List.length_range,List.length_take,List.length_drop]
    omega
  · intro k h1 h2
    have hk : k < chunk := by simpa using h1
    simp only [List.getElem_map,List.getElem_range,List.getElem_take,List.getElem_drop]
    by_cases hz : chunk = 0
    · omega
    · rw [show (pos+k)/512 = pos/512 by omega,show (pos+k)%512 = pos%512+k by omega]

theorem extent_chunk (d : Disk Sector) (start size pos chunk : ℕ) (hs : pos + chunk ≤ size)
    (hc : pos%512 + chunk ≤ 512) :
    (List.range chunk).map (fun k => sectorMem (d (start+pos/512)) (pos%512+k)) =
      ((extent d start size).drop pos).take chunk := sectors_chunk (fun j => d (start+j)) size pos chunk hs hc

section Read
variable {N : ℕ} (hN : N ≤ 2^28) {d : Disk Sector} {start size : ℕ} (hstop : start + sectorsOf size ≤ N)
  (hsize : size + 511 < 2^32)
include hN hstop hsize

theorem run_fsReadLoop {fuel remaining : ℕ} (pos : ℕ) (hfuel : remaining ≤ fuel) (hle : pos + remaining ≤ size) :
    run (drive N) (fsReadLoop fuel remaining ⟨start,size,pos,true⟩) d =
      ((((extent d start size).drop pos).take remaining,⟨start,size,pos+remaining,true⟩),d) := by
  induction fuel generalizing pos remaining with
  | zero =>
    obtain rfl : remaining = 0 := by omega
    rw [fsReadLoop,run_pure,List.take_zero,Nat.add_zero]
  | succ fuel ih =>
    rw [fsReadLoop]
    by_cases hz : remaining = 0
    · subst hz
      rw [if_pos rfl,run_pure,List.take_zero,Nat.add_zero]
    · have hsector : pos/512 < sectorsOf size := by
        unfold sectorsOf
        omega
      have hmod : (start+pos/512) % 2^32 = start+pos/512 := Nat.mod_eq_of_lt (by omega)
      have hacc : (drive N).accepts (start+pos/512) = true := decide_eq_true (by omega)
      have hpos : (pos + min (512-pos%512) remaining) % 2^32 = pos + min (512-pos%512) remaining :=
        Nat.mod_eq_of_lt (by omega)
      rw [if_neg hz,run_bind]
      dsimp only
      rw [hmod,run_readAt,if_pos hacc,place_of_accepts hN hacc]
      dsimp only
      rw [run_bind,hpos,ih (pos+min (512-pos%512) remaining) (by omega) (by omega)]
      dsimp only
      rw [run_pure,extent_chunk d start size pos _ (by omega) (by omega),← List.drop_drop,← List.take_add]
      congr 3
      · omega
      · omega

theorem run_fsRead (pos len : ℕ) (hle : pos ≤ size) :
    run (drive N) (fsRead ⟨start,size,pos,true⟩ len) d =
      ((((extent d start size).drop pos).take len,⟨start,size,min (pos+len) size,true⟩),d) := by
  have hlen := length_extent d start size
  unfold fsRead
  by_cases hend : size ≤ pos
  · rw [if_pos (Or.inr hend),run_pure,List.drop_eq_nil_of_le (by omega),List.take_nil,
      show min (pos+len) size = pos by omega]
  · rw [if_neg (by simpa using hend),run_fsReadLoop hN hstop hsize pos (le_refl _) (by dsimp only; omega)]
    dsimp only
    rw [show pos + min len (size-pos) = min (pos+len) size by omega]
    congr 2
    rw [List.take_eq_take_iff,List.length_drop,hlen]
    omega

theorem run_fsReads (lens : List ℕ) (pos : ℕ) (hle : pos ≤ size) :
    run (drive N) (fsReads ⟨start,size,pos,true⟩ lens) d = (((extent d start size).drop pos).take lens.sum,d) := by
  have hlen := length_extent d start size
  induction lens generalizing pos with
  | nil => rw [fsReads,run_pure,List.sum_nil,List.take_zero]
  | cons len lens ih =>
    rw [fsReads,run_bind,run_fsRead hN hstop hsize pos len hle]
    dsimp only
    rw [run_bind,ih _ (by omega)]
    dsimp only
    have hdrop : (extent d start size).drop (min (pos+len) size) = ((extent d start size).drop pos).drop len := by
      rw [List.drop_drop,List.drop_eq_drop_iff,hlen]
      omega
    rw [run_pure,hdrop,← List.take_add,List.sum_cons]

end Read

theorem run_fsReadLoop_disk (D : Drive) (fuel remaining : ℕ) (f : File) (d : Disk Sector) :
    (run D (fsReadLoop fuel remaining f) d).2 = d := by
  induction fuel generalizing remaining f with
  | zero => rfl
  | succ fuel ih =>
    rw [fsReadLoop]
    split
    · rfl
    · rw [run_bind,run_readAt]
      dsimp only
      split
      · rfl
      · rw [run_bind,run_pure]
        exact ih _ _

theorem run_fsRead_disk (D : Drive) (f : File) (len : ℕ) (d : Disk Sector) : (run D (fsRead f len) d).2 = d := by
  unfold fsRead
  split
  · rfl
  · exact run_fsReadLoop_disk D _ _ f d

theorem fsOpen_spec {N : ℕ} (hN : N ≤ 2^28) (hlba : fsDataLba ≤ N) {d : Disk Sector} {m : FileMap} (h : Volume N d)
    (hm : Represents d m) (name : Name) :
    (name ∉ m ∧ run (drive N) (fsOpen name.val) d = (none,d)) ∨
      ∃ f data, m.lookup name = some data ∧ run (drive N) (fsOpen name.val) d = (some f,d) ∧
        ∀ lens, (run (drive N) (fsReads f lens) d).1 = data.take lens.sum := by
  rw [fsOpen,run_bind,run_readDir hN d hlba]
  dsimp only
  cases hf : findEntry (dirOf d) name.val with
  | none =>
    left
    refine ⟨?_,rfl⟩
    rw [← Finmap.lookup_eq_none,hm.lookup,fileOf_eq_none]
    exact findEntry_none.mp hf
  | some i =>
    right
    obtain ⟨hi,hmi⟩ := findEntry_some hf
    have hp := h.placed i hi hmi.1
    refine ⟨_,_,(hm.lookup name).trans (h.fileOf_some name hi hmi),rfl,?_⟩
    intro lens
    rw [run_fsReads hN hp.stop hp.size lens 0 (Nat.zero_le _),List.drop_zero]

/-! ## Whole histories -/

/-- A history of calls on a drive of `N` sectors from an `fs_format` on, and the map that follows it: a call
that returns 0 has its effect on the map, a call that returns -1 has none. -/
inductive History (N : ℕ) : Disk Sector → FileMap → Prop
  | format (d : Disk Sector) : History N (run (drive N) fsFormat d).2 ∅
  | writeNew {d : Disk Sector} {m : FileMap} (name : Name) (data : Bytes) : History N d m →
      data.length + 511 < 2^32 → History N (run (drive N) (fsWriteNew name.val data) d).2
        (if (run (drive N) (fsWriteNew name.val data) d).1 = 0 then m.insert name data else m)
  | delete {d : Disk Sector} {m : FileMap} (name : Name) : History N d m →
      History N (run (drive N) (fsDelete name.val) d).2
        (if (run (drive N) (fsDelete name.val) d).1 = 0 then m.erase name else m)
  | opened {d : Disk Sector} {m : FileMap} (name : Name) : History N d m →
      History N (run (drive N) (fsOpen name.val) d).2 m
  | read {d : Disk Sector} {m : FileMap} (f : File) (len : ℕ) : History N d m →
      History N (run (drive N) (fsRead f len) d).2 m

section History
variable {N : ℕ} (hN : N ≤ 2^28) (hlba : fsDataLba ≤ N) {d : Disk Sector} {m : FileMap}
include hN hlba

theorem History.represents (h : History N d m) : Volume N d ∧ Represents d m := by
  induction h with
  | format d =>
    obtain ⟨d',hrun,hd'⟩ := run_fsFormat hN hlba d
    rw [hrun]
    refine ⟨hd'.volume N,?_,?_⟩
    · intro name
      rw [Finmap.lookup_empty,hd'.fileOf]
    · dsimp only
      rw [hd'.super,numFiles_blankSuper,Finmap.keys_empty,Finset.card_empty]
  | writeNew name data _ hlen ih =>
    obtain ⟨hv,hcases⟩ := fsWriteNew_spec hN hlba ih.1 ih.2 name hlen
    refine ⟨hv,?_⟩
    rcases hcases with ⟨hr,_,hrep⟩ | ⟨hr,_,hrep⟩
    · rw [if_pos hr]
      exact hrep
    · rw [if_neg (by rw [hr]; decide)]
      exact hrep
  | delete name _ ih =>
    obtain ⟨hv,hcases⟩ := fsDelete_spec hN hlba ih.1 ih.2 name
    refine ⟨hv,?_⟩
    rcases hcases with ⟨_,hr,hrep⟩ | ⟨_,hr⟩
    · rw [if_pos hr]
      exact hrep
    · rw [hr]
      dsimp only
      rw [if_neg (by decide)]
      exact ih.2
  | opened name _ ih =>
    rcases fsOpen_spec hN hlba ih.1 ih.2 name with ⟨_,hr⟩ | ⟨f,data,_,hr,_⟩
    · rw [hr]
      exact ih
    · rw [hr]
      exact ih
  | read f len _ ih =>
    rw [run_fsRead_disk]
    exact ih

/-- What the calls after a history return, in terms of its map. -/
structure Refines (N : ℕ) (d : Disk Sector) (m : FileMap) : Prop where
  represents : Represents d m
  format : (run (drive N) fsFormat d).1 = 0
  writeNew : ∀ (name : Name) (data : Bytes), data.length + 511 < 2^32 →
    ((run (drive N) (fsWriteNew name.val data) d).1 = 0 ∧ ¬ Refused N d m name data) ∨
    ((run (drive N) (fsWriteNew name.val data) d).1 = -1 ∧ Refused N d m name data)
  delete : ∀ name : Name, ((run (drive N) (fsDelete name.val) d).1 = 0 ∧ name ∈ m) ∨
    ((run (drive N) (fsDelete name.val) d).1 = -1 ∧ name ∉ m)
  opens : ∀ name : Name, (run (drive N) (fsOpen name.val) d).1.isSome = true ↔ name ∈ m
  reads : ∀ (name : Name) (f : File), (run (drive N) (fsOpen name.val) d).1 = some f →
    ∃ data, m.lookup name = some data ∧ ∀ lens, (run (drive N) (fsReads f lens) d).1 = data.take lens.sum

theorem vesperFs_refines_map (h : History N d m) : Refines N d m := by
  obtain ⟨hv,hm⟩ := h.represents hN hlba
  constructor
  · exact hm
  · obtain ⟨d',hrun,_⟩ := run_fsFormat hN hlba d
    rw [hrun]
  · intro name data hlen
    rcases (fsWriteNew_spec hN hlba hv hm name hlen).2 with ⟨hr,href,_⟩ | ⟨hr,href,_⟩
    · exact Or.inl ⟨hr,href⟩
    · exact Or.inr ⟨hr,href⟩
  · intro name
    rcases (fsDelete_spec hN hlba hv hm name).2 with ⟨hin,hr,_⟩ | ⟨hn,hr⟩
    · exact Or.inl ⟨hr,hin⟩
    · rw [hr]
      exact Or.inr ⟨rfl,hn⟩
  · intro name
    rcases fsOpen_spec hN hlba hv hm name with ⟨hn,hr⟩ | ⟨f,data,hl,hr,_⟩
    · rw [hr]
      exact iff_of_false Bool.false_ne_true hn
    · rw [hr]
      exact iff_of_true rfl (Finmap.mem_of_lookup_eq_some hl)
  · intro name f hf
    rcases fsOpen_spec hN hlba hv hm name with ⟨_,hr⟩ | ⟨f',data,hl,hr,hreads⟩
    · rw [hr] at hf
      cases hf
    · rw [hr] at hf
      cases hf
      exact ⟨data,hl,hreads⟩

end History

theorem vesperFs_refines_map_sample : ∃ d m, History 200 d m ∧ Refines 200 d m :=
  ⟨_,_,.writeNew ⟨[0x61],by decide⟩ [1,2,3] (.format (fun _ _ => 0)) (by decide),
    vesperFs_refines_map (by decide) (by decide) (.writeNew _ _ (.format _) (by decide))⟩

end VesperOS.MapRefinement
