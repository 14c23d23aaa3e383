import VesperOS.FileSystem.DirectoryEdits

/-! # Stored names

`fs_write_new` compares the whole name of the caller but stores its first 31 bytes.
The lemmas here make no assumption on the length of a name: what an entry stores,
which entries `strcmp` finds equal to it, and what the scan selects.
-/
namespace VesperOS.StoredNames
open ByteMemory VesperFs DiskVolume DirectoryEdits

/-- The string at `a`, cut after `n` bytes. -/
def cString (m : Mem) (a : ℕ) : ℕ → Bytes
  | 0 => []
  | n+1 => if m a = 0 then [] else m a :: cString m (a+1) n

def storedName (dir : Mem) (i : ℕ) : Bytes := cString dir (entryAddr i) 32

theorem cString_congr {m m' : Mem} {a n : ℕ} (h : ∀ x, a ≤ x → x < a+n → m' x = m x) :
    cString m' a n = cString m a n := by
  induction n generalizing a with
  | zero => rfl
  | succ n ih =>
    have htail := ih (a := a+1) (fun x h1 h2 => h x (by omega) (by omega))
    rw [cString,cString,h a (le_refl a) (by omega),htail]

/-- `strcmp` with a string whose terminator lies in the first `n` bytes. -/
theorem strcmpEq_iff_cString {m : Mem} {a n k : ℕ} {s : Bytes} (hk : k < n) (hend : m (a+k) = 0) (hz : 0 ∉ s) :
    strcmpEq m a s ↔ cString m a n = s := by
  induction s generalizing a n k with
  | nil =>
    obtain ⟨n,rfl⟩ : ∃ n', n = n'+1 := ⟨n-1,by omega⟩
    unfold strcmpEq cString
    by_cases ha : m a = 0
    · simp [ha]
    · simp [ha]
  | cons c cs ih =>
    obtain ⟨n,rfl⟩ : ∃ n', n = n'+1 := ⟨n-1,by omega⟩
    have hc : c ≠ 0 := by
      rintro rfl
      exact hz List.mem_cons_self
    unfold strcmpEq cString
    by_cases ha : m a = 0
    · rw [if_pos ha,ha]
      exact iff_of_false (fun h => hc h.1.symm) (by simp)
    · rw [if_neg ha,List.cons.injEq]
      have hk0 : k ≠ 0 := by
        rintro rfl
        exact ha hend
      have htail := ih (a := a+1) (n := n) (k := k-1) (by omega)
        (by rwa [show a+1+(k-1) = a+k by omega]) (fun h => hz (List.mem_cons_of_mem _ h))
      rw [htail]

theorem cString_of_getD {m : Mem} {a n : ℕ} {s : Bytes} (hlen : s.length < n) (hz : 0 ∉ s)
    (h : ∀ k ≤ s.length, m (a+k) = s.getD k 0) : cString m a n = s := by
  apply (strcmpEq_iff_cString hlen _ hz).mp (strcmpEq_of_getD h)
  rw [h _ (le_refl _),List.getD_eq_getElem?_getD,List.getElem?_eq_none (le_refl _)]
  rfl

/-- The name fields of active entries hold a terminator in their last byte. -/
def Terminated (dir : Mem) : Prop := ∀ i < fsMaxFiles, Active dir i → dir (entryAddr i+31) = 0

theorem matches_iff_stored {dir : Mem} (h : Terminated dir) {i : ℕ} (hi : i < fsMaxFiles) {name : Bytes} (hz : 0 ∉ name) :
    Matches dir name i ↔ Active dir i ∧ storedName dir i = name := by
  unfold Matches storedName
  constructor
  · rintro ⟨ha,hm⟩
    exact ⟨ha,(strcmpEq_iff_cString (by decide) (h i hi ha) hz).mp hm⟩
  · rintro ⟨ha,hm⟩
    exact ⟨ha,(strcmpEq_iff_cString (by decide) (h i hi ha) hz).mpr hm⟩

theorem SameEntry.storedName {dir dir' : Mem} {i : ℕ} (h : SameEntry dir dir' i) :
    storedName dir' i = StoredNames.storedName dir i :=
  cString_congr fun x h1 h2 => h x h1 (by omega)

theorem length_cString_lt {m : Mem} {a n k : ℕ} (hk : k < n) (hend : m (a+k) = 0) : (cString m a n).length ≤ k := by
  induction n generalizing a k with
  | zero => omega
  | succ n ih =>
    unfold cString
    split
    · exact Nat.zero_le _
    · cases k with
      | zero => exact absurd hend ‹_›
      | succ k =>
        have htail := ih (a := a+1) (k := k) (by omega) (by rwa [show a+1+k = a+(k+1) by omega])
        exact Nat.succ_le_succ htail

/-! ## A stored entry -/

section SetEntry
variable {dir : Mem} {i start size : ℕ} {name : Bytes}

theorem setEntry_byte {k : ℕ} (hk : k ≤ 31) :
    setEntry dir i name start size (entryAddr i+k) = (name.take 31).getD k 0 := by
  unfold setEntry fsNameMax
  simp (disch := omega) only [write32_of_outside]
  by_cases h31 : k = 31
  · subst h31
    rw [write8_same,List.getD_eq_getElem?_getD,List.getElem?_eq_none (by simp)]
    rfl
  · rw [write8_of_ne _ _ (by omega),memcpy_apply,if_pos (by omega),Nat.add_sub_cancel_left,
      List.getD_eq_getElem?_getD,List.getD_eq_getElem?_getD,List.getElem?_take_of_lt (by omega)]

theorem setEntry_stored (hz : 0 ∉ name) : storedName (setEntry dir i name start size) i = name.take 31 := by
  apply cString_of_getD
  · rw [List.length_take]
    omega
  · exact fun h => hz (List.mem_of_mem_take h)
  · intro k hk
    apply setEntry_byte
    rw [List.length_take] at hk
    omega

theorem setEntry_active (hne : name ≠ []) (hz : 0 ∉ name) : Active (setEntry dir i name start size) i := by
  refine ⟨?_,by rw [setEntry_flags]; decide⟩
  have h0 := @setEntry_byte dir i start size name 0 (by omega)
  rw [Nat.add_zero] at h0
  rw [h0]
  cases name with
  | nil => exact absurd rfl hne
  | cons c cs =>
    rintro rfl
    exact hz List.mem_cons_self

theorem setEntry_sameEntry {j : ℕ} (hj : j ≠ i) : SameEntry dir (setEntry dir i name start size) j :=
  sameEntry_of_ne hj fun _ hx => setEntry_of_outside hx

theorem setEntry_terminated (h : Terminated dir) : Terminated (setEntry dir i name start size) := by
  intro j hj ha
  by_cases hji : j = i
  · subst hji
    rw [setEntry_byte (le_refl _),List.getD_eq_getElem?_getD,List.getElem?_eq_none (by simp)]
    rfl
  · have hsame := @setEntry_sameEntry dir i start size name _ hji
    rw [hsame _ (by omega) (by omega)]
    exact h j hj (hsame.active.mp ha)

end SetEntry

/-! ## The slot that the scan selects -/

section Scan
variable {dir : Mem} {name : Bytes}

/-- An entry of the name has been seen. -/
def Seen (dir : Mem) (name : Bytes) (acc : Scan) : Prop :=
  acc.isOverwrite = true ∧ ∃ i < fsMaxFiles, acc.target = some i ∧ Matches dir name i

theorem seen_of_matches {acc : Scan} {i : ℕ} (hi : i < fsMaxFiles) (hm : Matches dir name i) :
    Seen dir name (scanEntry dir name acc i) := by
  obtain ⟨h1,h2⟩ : (scanEntry dir name acc i).isOverwrite = true ∧ (scanEntry dir name acc i).target = some i :=
    scanEntry_match hm
  exact ⟨h1,i,hi,h2,hm⟩

theorem seen_kept {acc : Scan} (h : Seen dir name acc) {i : ℕ} (hi : i < fsMaxFiles) :
    Seen dir name (scanEntry dir name acc i) := by
  by_cases hm : Matches dir name i
  · exact seen_of_matches hi hm
  · obtain ⟨h1,h2⟩ := scanEntry_other acc hm
    obtain ⟨ho,j,hj,ht,hmj⟩ := h
    refine ⟨h1.trans ho,j,hj,?_,hmj⟩
    rw [h2,ht]
    exact ite_self _

theorem scan_seen {l : List ℕ} (hl : ∀ i ∈ l, i < fsMaxFiles) {acc : Scan}
    (h : Seen dir name acc ∨ ∃ i ∈ l, Matches dir name i) : Seen dir name (l.foldl (scanEntry dir name) acc) := by
  induction l generalizing acc with
  | nil =>
    rcases h with h | ⟨i,hi,_⟩
    · exact h
    · cases hi
  | cons i l ih =>
    have hi := hl i List.mem_cons_self
    rw [List.foldl_cons]
    apply ih (fun j hj => hl j (List.mem_cons_of_mem _ hj))
    rcases h with h | ⟨j,hj,hm⟩
    · exact Or.inl (seen_kept h hi)
    · rcases List.mem_cons.mp hj with rfl | hj
      · exact Or.inl (seen_of_matches hi hm)
      · exact Or.inr ⟨j,hj,hm⟩

/-- The selected slot carries the name, or it is free and no entry carries the name. -/
theorem scanDir_slot {slot : ℕ} (ht : (scanDir dir name).target = some slot) : slot < fsMaxFiles ∧
    (((scanDir dir name).isOverwrite = true ∧ Matches dir name slot) ∨
      ((scanDir dir name).isOverwrite = false ∧ ¬ Active dir slot ∧ ∀ j < fsMaxFiles, ¬ Matches dir name j)) := by
  by_cases hp : ∃ i ∈ List.range fsMaxFiles, Matches dir name i
  · obtain ⟨ho,i,hi,hti,hm⟩ := @scan_seen _ _ _
      (fun i hi => List.mem_range.mp hi) ⟨none,false,fsDataLba⟩ (Or.inr hp)
    have hslot : some slot = some i := ht.symm.trans hti
    cases hslot
    exact ⟨hi,Or.inl ⟨ho,hm⟩⟩
  · have hn : ∀ i ∈ List.range fsMaxFiles, ¬ Matches dir name i := fun i hi hm => hp ⟨i,hi,hm⟩
    obtain ⟨ho,ht'⟩ := scan_new ⟨none,false,fsDataLba⟩ hn
    rw [Option.none_or] at ht'
    have hfind := ht'.symm.trans ht
    have hlt := List.mem_range.mp (List.mem_of_find?_eq_some hfind)
    have hfree := List.find?_some hfind
    simp only [decide_not,Bool.not_eq_true',decide_eq_false_iff_not] at hfree
    exact ⟨hlt,Or.inr ⟨ho,hfree,fun j hj => hn j (List.mem_range.mpr hj)⟩⟩

end Scan

end VesperOS.StoredNames
