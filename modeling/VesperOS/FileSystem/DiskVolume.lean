import VesperOS.FileSystem.VesperFs

/-! # The volume on disk

What a formatted disk holds: the directory as byte memory, the content of each
name, and the invariant that every operation keeps. A change of one directory
entry and a change outside all active extents are the only two ways in which the
operations alter a volume; each has one lemma here.
-/
namespace VesperOS.DiskVolume
open ByteMemory DiskProgram VesperFs

/-- File names of 1 to 31 bytes. -/
abbrev Name := { b : Bytes // b ≠ [] ∧ b.length ≤ fsNameMax ∧ 0 ∉ b }

/-! ## The directory -/

def dirOf (d : Disk Sector) : Mem := dirBuf ((List.range fsDirSectors).map (fun j => d (fsDirLba+j)))

theorem dirOf_apply (d : Disk Sector) {a : ℕ} (h : a < 4096) : dirOf d a = sectorMem (d (130+a/512)) (a%512) := by
  have hj : a/512 < 8 := by omega
  unfold dirOf dirBuf
  simp [fsDirSectors,fsDirLba,hj]

theorem dirOf_high (d : Disk Sector) {a : ℕ} (h : 4096 ≤ a) : dirOf d a = 0 := by
  have hj : ¬ a/512 < 8 := by omega
  unfold dirOf dirBuf
  simp [fsDirSectors,hj,sectorMem]

theorem dirOf_congr {d d' : Disk Sector} (h : ∀ x, 130 ≤ x → x < 138 → d' x = d x) : dirOf d' = dirOf d := by
  funext a
  by_cases ha : a < 4096
  · rw [dirOf_apply d ha,dirOf_apply d' ha,h _ (by omega) (by omega)]
  · rw [dirOf_high d (by omega),dirOf_high d' (by omega)]

theorem sectorMem_memSector (m : Mem) (off : ℕ) {a : ℕ} (h : a < 512) : sectorMem (memSector m off) a = m (off+a) := by
  unfold sectorMem memSector
  rw [dif_pos h]

/-! ## Names -/

/-- Two NUL-free strings at one address are equal. -/
theorem strcmpEq_unique {m : Mem} {a : ℕ} {s t : Bytes} (hs : strcmpEq m a s) (ht : strcmpEq m a t)
    (zs : 0 ∉ s) (zt : 0 ∉ t) : s = t := by
  induction s generalizing a t with
  | nil =>
    cases t with
    | nil => rfl
    | cons c cs =>
      have hc : c = 0 := ht.1.symm.trans hs
      exact absurd (hc ▸ List.mem_cons_self) zt
  | cons b bs ih =>
    cases t with
    | nil =>
      have hb : b = 0 := hs.1.symm.trans ht
      exact absurd (hb ▸ List.mem_cons_self) zs
    | cons c cs =>
      obtain rfl : b = c := hs.1.symm.trans ht.1
      rw [ih hs.2 ht.2 (fun h => zs (List.mem_cons_of_mem _ h)) (fun h => zt (List.mem_cons_of_mem _ h))]

theorem strcmpEq_congr {m m' : Mem} {a : ℕ} {s : Bytes} (h : ∀ x, a ≤ x → x ≤ a + s.length → m' x = m x) :
    strcmpEq m' a s ↔ strcmpEq m a s := by
  induction s generalizing a with
  | nil =>
    unfold strcmpEq
    rw [h a (le_refl _) (by simp)]
  | cons c cs ih =>
    unfold strcmpEq
    rw [h a (le_refl _) (by omega),ih]
    intro x h1 h2
    exact h x (by omega) (by rw [List.length_cons]; omega)

/-- A string stored with a NUL after it. -/
theorem strcmpEq_of_getD {m : Mem} {a : ℕ} {s : Bytes} (h : ∀ k ≤ s.length, m (a+k) = s.getD k 0) :
    strcmpEq m a s := by
  induction s generalizing a with
  | nil =>
    have h0 := h 0 (le_refl _)
    exact h0
  | cons c cs ih =>
    constructor
    · simpa using h 0 (by simp)
    · apply ih
      intro k hk
      have hs := h (k+1) (by rw [List.length_cons]; omega)
      rw [List.getD_cons_succ] at hs
      rw [← hs]
      congr 1
      omega

theorem strcmpEq_ne_zero {m : Mem} {a : ℕ} {name : Name} (h : strcmpEq m a name.val) : m a ≠ 0 := by
  obtain ⟨bytes,hne,_,hz⟩ := name
  cases bytes with
  | nil => exact absurd rfl hne
  | cons c cs =>
    rw [show m a = c from h.1]
    rintro rfl
    exact hz List.mem_cons_self

/-! ## One entry -/

/-- The 64 bytes of entry `i` are the same. -/
def SameEntry (dir dir' : Mem) (i : ℕ) : Prop := ∀ x, entryAddr i ≤ x → x < entryAddr i + 64 → dir' x = dir x

section Same
variable {dir dir' : Mem} {i : ℕ} (h : SameEntry dir dir' i)
include h

theorem SameEntry.word {k : ℕ} (hk : k + 4 ≤ 64) : read32 dir' (entryAddr i+k) = read32 dir (entryAddr i+k) :=
  read32_congr fun x h1 h2 => h x (by omega) (by omega)

theorem SameEntry.startLba : startLba dir' i = startLba dir i := h.word (by omega)

theorem SameEntry.fileSize : fileSize dir' i = fileSize dir i := h.word (by omega)

theorem SameEntry.active : Active dir' i ↔ Active dir i := by
  unfold Active flags
  rw [h _ (le_refl _) (by omega),h.word (by omega)]

theorem SameEntry.strcmpEq (name : Name) :
    VesperFs.strcmpEq dir' (entryAddr i) name.val ↔ VesperFs.strcmpEq dir (entryAddr i) name.val := by
  have hlen := name.property.2.1
  simp only [fsNameMax] at hlen
  exact strcmpEq_congr fun x h1 h2 => h x h1 (by omega)

theorem SameEntry.matches (name : Name) : Matches dir' name.val i ↔ Matches dir name.val i := by
  unfold Matches
  rw [h.active,h.strcmpEq]

end Same

theorem matches_unique {dir : Mem} {i : ℕ} {name other : Name} (h : Matches dir name.val i)
    (h' : Matches dir other.val i) : name = other :=
  Subtype.ext (strcmpEq_unique h.2 h'.2 name.property.2.2 other.property.2.2)

/-! ## Contents and the invariant -/

/-- The first `size` bytes of the sectors from `start` on. -/
def extent (d : Disk Sector) (start size : ℕ) : Bytes :=
  (List.range size).map (fun k => sectorMem (d (start+k/512)) (k%512))

/-- The content of a name on the disk. -/
def fileOf (d : Disk Sector) (name : Bytes) : Option Bytes :=
  (findEntry (dirOf d) name).map (fun i => extent d (startLba (dirOf d) i) (fileSize (dirOf d) i))

/-- The data of entry `i` lies in the data area of a disk of `N` sectors. -/
structure Placed (N : ℕ) (dir : Mem) (i : ℕ) : Prop where
  start : fsDataLba ≤ startLba dir i
  stop : startLba dir i + sectorsOf (fileSize dir i) ≤ N
  size : fileSize dir i + 511 < 2^32

structure Volume (N : ℕ) (d : Disk Sector) : Prop where
  magic : magicOk (d fsSuperLba) = true
  named : ∀ i < fsMaxFiles, Active (dirOf d) i → ∃ name : Name, Matches (dirOf d) name.val i
  placed : ∀ i < fsMaxFiles, Active (dirOf d) i → Placed N (dirOf d) i
  unique : ∀ i < fsMaxFiles, ∀ j < fsMaxFiles, ∀ name : Name,
    Matches (dirOf d) name.val i → Matches (dirOf d) name.val j → i = j

theorem extent_congr {d d' : Disk Sector} {start size : ℕ} (hs : size + 511 < 2^32)
    (h : ∀ x, start ≤ x → x < start + sectorsOf size → d' x = d x) : extent d' start size = extent d start size := by
  apply List.map_congr_left
  intro k hk
  have hlt := List.mem_range.mp hk
  rw [h _ (by omega)]
  unfold sectorsOf
  omega

theorem findEntry_some {dir : Mem} {name : Bytes} {i : ℕ} (h : findEntry dir name = some i) :
    i < fsMaxFiles ∧ Matches dir name i := by
  have hm := List.mem_range.mp (List.mem_of_find?_eq_some h)
  have hs := List.find?_some h
  exact ⟨hm,of_decide_eq_true hs⟩

theorem findEntry_none {dir : Mem} {name : Bytes} :
    findEntry dir name = none ↔ ∀ i < fsMaxFiles, ¬ Matches dir name i := by
  unfold findEntry
  rw [List.find?_eq_none]
  simp only [List.mem_range,decide_eq_true_eq]

section Contents
variable {N : ℕ} {d : Disk Sector} (h : Volume N d)
include h

theorem Volume.findEntry_iff (name : Name) {i : ℕ} :
    findEntry (dirOf d) name.val = some i ↔ i < fsMaxFiles ∧ Matches (dirOf d) name.val i := by
  constructor
  · exact findEntry_some
  · rintro ⟨hi,hm⟩
    cases hf : findEntry (dirOf d) name.val with
    | none => exact absurd hm (findEntry_none.mp hf i hi)
    | some j =>
      obtain ⟨hj,hmj⟩ := findEntry_some hf
      rw [h.unique j hj i hi name hmj hm]

theorem Volume.fileOf_some (name : Name) {i : ℕ} (hi : i < fsMaxFiles) (hm : Matches (dirOf d) name.val i) :
    fileOf d name.val = some (extent d (startLba (dirOf d) i) (fileSize (dirOf d) i)) := by
  unfold fileOf
  rw [(h.findEntry_iff name).mpr ⟨hi,hm⟩]
  rfl

end Contents

theorem fileOf_eq_none {d : Disk Sector} {name : Bytes} :
    fileOf d name = none ↔ ∀ i < fsMaxFiles, ¬ Matches (dirOf d) name i := by
  unfold fileOf
  rw [Option.map_eq_none_iff,findEntry_none]

/-! ## Changes of a volume -/

/-- A change outside the directory and the active extents that keeps the magic. -/
theorem Volume.congr {N : ℕ} {d d' : Disk Sector} (h : Volume N d) (hmagic : magicOk (d' fsSuperLba) = true)
    (hdir : dirOf d' = dirOf d)
    (hdata : ∀ i < fsMaxFiles, Active (dirOf d) i → ∀ x, startLba (dirOf d) i ≤ x →
      x < startLba (dirOf d) i + sectorsOf (fileSize (dirOf d) i) → d' x = d x) :
    Volume N d' ∧ ∀ name, fileOf d' name = fileOf d name := by
  constructor
  · constructor
    · exact hmagic
    · rw [hdir]
      exact h.named
    · rw [hdir]
      exact h.placed
    · rw [hdir]
      exact h.unique
  · intro name
    unfold fileOf
    rw [hdir]
    cases hf : findEntry (dirOf d) name with
    | none => rfl
    | some i =>
      obtain ⟨hi,hm⟩ := findEntry_some hf
      rw [Option.map_some,Option.map_some,extent_congr (h.placed i hi hm.1).size (hdata i hi hm.1)]

section Replace
variable {N slot : ℕ} {d d' : Disk Sector} (h : Volume N d) (hsuper : d' fsSuperLba = d fsSuperLba)
  (hdata : ∀ x, fsDataLba ≤ x → d' x = d x)
  (hsame : ∀ j < fsMaxFiles, j ≠ slot → SameEntry (dirOf d) (dirOf d') j)
include h hdata hsame

/-- Names that are not in the changed entry, before or after, keep their content. -/
theorem Volume.fileOf_other (name : Name) (hold : ¬ Matches (dirOf d) name.val slot)
    (hnew : ¬ Matches (dirOf d') name.val slot) : fileOf d' name.val = fileOf d name.val := by
  have hm : ∀ j < fsMaxFiles, Matches (dirOf d') name.val j ↔ Matches (dirOf d) name.val j := by
    intro j hj
    by_cases hjs : j = slot
    · subst hjs
      exact iff_of_false hnew hold
    · exact (hsame j hj hjs).matches name
  have hfind : findEntry (dirOf d') name.val = findEntry (dirOf d) name.val := by
    unfold findEntry
    apply List.find?_congr
    intro j hj
    simp only [hm j (List.mem_range.mp hj)]
  unfold fileOf
  rw [hfind]
  cases hf : findEntry (dirOf d) name.val with
  | none => rfl
  | some i =>
    obtain ⟨hi,hmi⟩ := findEntry_some hf
    have hne : i ≠ slot := by
      rintro rfl
      exact hold hmi
    have hp := h.placed i hi hmi.1
    rw [Option.map_some,Option.map_some,(hsame i hi hne).startLba,(hsame i hi hne).fileSize,
      extent_congr hp.size]
    intro x hx _
    exact hdata x (hp.start.trans hx)

include hsuper

omit hdata in
theorem Volume.replace (hslot : Active (dirOf d') slot → Placed N (dirOf d') slot ∧
      ∃ name : Name, Matches (dirOf d') name.val slot ∧
        ∀ j < fsMaxFiles, j ≠ slot → ¬ Matches (dirOf d) name.val j) : Volume N d' := by
  have hslot' : ∀ name : Name, Matches (dirOf d') name.val slot → ∀ j < fsMaxFiles,
      Matches (dirOf d') name.val j → j = slot := by
    intro name hm j hj hmj
    by_contra hne
    obtain ⟨name',hm',hfree⟩ := (hslot hm.1).2
    rw [matches_unique hm hm'] at hmj
    exact hfree j hj hne (((hsame j hj hne).matches name').mp hmj)
  constructor
  · rw [hsuper]
    exact h.magic
  · intro i hi ha
    by_cases his : i = slot
    · subst his
      obtain ⟨name,hm,_⟩ := (hslot ha).2
      exact ⟨name,hm⟩
    · obtain ⟨name,hm⟩ := h.named i hi ((hsame i hi his).active.mp ha)
      exact ⟨name,((hsame i hi his).matches name).mpr hm⟩
  · intro i hi ha
    by_cases his : i = slot
    · subst his
      exact (hslot ha).1
    · have hp := h.placed i hi ((hsame i hi his).active.mp ha)
      constructor
      · rw [(hsame i hi his).startLba]
        exact hp.start
      · rw [(hsame i hi his).startLba,(hsame i hi his).fileSize]
        exact hp.stop
      · rw [(hsame i hi his).fileSize]
        exact hp.size
  · intro i hi j hj name hmi hmj
    by_cases his : i = slot
    · subst his
      exact (hslot' name hmi j hj hmj).symm
    · by_cases hjs : j = slot
      · subst hjs
        exact hslot' name hmj i hi hmi
      · exact h.unique i hi j hj name (((hsame i hi his).matches name).mp hmi)
          (((hsame j hj hjs).matches name).mp hmj)

end Replace

end VesperOS.DiskVolume
