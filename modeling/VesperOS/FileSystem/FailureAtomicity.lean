import VesperOS.FileSystem.NameUniqueness

/-! # What a failed call leaves behind

A call that returns -1 has changed nothing that can be seen when it failed before the
directory sector of its entry was written. After that sector the change is on the
disk, and only a change that no name shows goes unnoticed.
-/
namespace VesperOS.FailureAtomicity
open ByteMemory DiskProgram FaultPattern VesperFs DiskVolume Transfers DirectoryEdits StoredNames FaultyTransfers
  FaultyCalls FileCount

/-- What every call keeps, whatever fails: names may repeat and the counter may be off. -/
structure Layout (N : ℕ) (d : Disk Sector) : Prop where
  magic : magicOk (d fsSuperLba) = true
  terminated : Terminated (dirOf d)
  bound : highestEnd (dirOf d) ≤ N
  placed : ∀ i < fsMaxFiles, Active (dirOf d) i → Placed N (dirOf d) i

def content (d : Disk Sector) (i : ℕ) : Bytes := extent d (startLba (dirOf d) i) (fileSize (dirOf d) i)

/-- The active names, their contents and the counter are the same. -/
structure Unchanged (d d' : Disk Sector) : Prop where
  files : ∀ name : Name, fileOf d' name.val = fileOf d name.val
  count : numFiles (d' fsSuperLba) = numFiles (d fsSuperLba)

section Layout
variable {N : ℕ} (hN : N ≤ 2^28) {d d' : Disk Sector}

theorem SameEntry.placed {dir dir' : Mem} {i : ℕ} (h : SameEntry dir dir' i) (hp : Placed N dir i) :
    Placed N dir' i := by
  constructor
  · rw [h.startLba]
    exact hp.start
  · rw [h.startLba,h.fileSize]
    exact hp.stop
  · rw [h.fileSize]
    exact hp.size

include hN

theorem Layout.stop_le (h : Layout N d) {i : ℕ} (hi : i < fsMaxFiles) (ha : Active (dirOf d) i) :
    startLba (dirOf d) i + sectorsOf (fileSize (dirOf d) i) ≤ highestEnd (dirOf d) := by
  have hstop := (h.placed i hi ha).stop
  have he := (highestEnd_le_iff.mp (le_refl (highestEnd (dirOf d)))).2 i hi ha
  unfold endLba at he
  rwa [Nat.mod_eq_of_lt (by omega)] at he

/-- An entry that stays keeps its content when nothing below the end of the extents changes. -/
theorem Layout.content_same (h : Layout N d) {i : ℕ} (hi : i < fsMaxFiles) (ha : Active (dirOf d) i)
    (hsame : SameEntry (dirOf d) (dirOf d') i)
    (hdata : ∀ x, fsDataLba ≤ x → x < highestEnd (dirOf d) → d' x = d x) : content d' i = content d i := by
  have hp := h.placed i hi ha
  have hstop := h.stop_le hN hi ha
  unfold content
  rw [hsame.startLba,hsame.fileSize]
  apply extent_congr hp.size
  intro x hx hlt
  exact hdata x (hp.start.trans hx) (lt_of_lt_of_le hlt hstop)

end Layout

/-! ## Looking up a name -/

theorem findEntry_eq_some {dir : Mem} {name : Bytes} {i : ℕ} : findEntry dir name = some i ↔
    i < fsMaxFiles ∧ Matches dir name i ∧ ∀ j < i, ¬ Matches dir name j := by
  unfold findEntry
  rw [List.find?_range_eq_some]
  simp only [decide_eq_true_eq,List.mem_range,Bool.not_eq_true',decide_eq_false_iff_not]
  constructor
  · rintro ⟨hm,hi,hfirst⟩
    exact ⟨hi,hm,hfirst⟩
  · rintro ⟨hi,hm,hfirst⟩
    exact ⟨hm,hi,hfirst⟩

theorem fileOf_found {d : Disk Sector} {name : Bytes} {i : ℕ} (h : findEntry (dirOf d) name = some i) :
    fileOf d name = some (content d i) := by
  unfold fileOf
  rw [h]
  rfl

/-- A name that the same entries carry, with the same contents. -/
theorem fileOf_same {d d' : Disk Sector} {name : Bytes}
    (hm : ∀ i < fsMaxFiles, Matches (dirOf d') name i ↔ Matches (dirOf d) name i)
    (hc : ∀ i < fsMaxFiles, Matches (dirOf d) name i → content d' i = content d i) :
    fileOf d' name = fileOf d name := by
  have hfind : findEntry (dirOf d') name = findEntry (dirOf d) name := by
    unfold findEntry
    apply List.find?_congr
    intro i hi
    simp only [hm i (List.mem_range.mp hi)]
  cases hf : findEntry (dirOf d) name with
  | none => rw [fileOf,fileOf,hfind,hf,Option.map_none,Option.map_none]
  | some i =>
    obtain ⟨hi,hmi⟩ := findEntry_some hf
    rw [fileOf_found hf,fileOf_found (hfind.trans hf),hc i hi hmi]

theorem unchanged_kept {N : ℕ} (hN : N ≤ 2^28) {d d' : Disk Sector} (h : Layout N d) (hdir : dirOf d' = dirOf d)
    (hsuper : d' fsSuperLba = d fsSuperLba) (hdata : ∀ x, fsDataLba ≤ x → x < highestEnd (dirOf d) → d' x = d x) :
    Unchanged d d' := by
  constructor
  · intro name
    apply fileOf_same
    · intro i _
      rw [hdir]
    · intro i hi hm
      apply h.content_same hN hi hm.1 _ hdata
      intro x _ _
      rw [hdir]
  · rw [hsuper]

/-! ## `fs_write_new` -/

theorem cut_isName {name : Bytes} (hne : name ≠ []) (hz : 0 ∉ name) :
    name.take 31 ≠ [] ∧ (name.take 31).length ≤ fsNameMax ∧ 0 ∉ name.take 31 := by
  refine ⟨?_,?_,fun h => hz (List.mem_of_mem_take h)⟩
  · intro h
    cases name with
    | nil => exact hne rfl
    | cons c cs => cases h
  · rw [List.length_take]
    exact Nat.min_le_left _ _

/-- The entry that is replaced, if any, has the stored name of the new one. -/
theorem slot_named {N : ℕ} {d : Disk Sector} {name : Bytes} {slot : ℕ} (h : Layout N d) (hz : 0 ∉ name)
    (ht : (scanDir (dirOf d) name).target = some slot) (ha : Active (dirOf d) slot) :
    storedName (dirOf d) slot = name.take 31 := by
  obtain ⟨hslot,⟨-,hm⟩ | ⟨-,hfree,-⟩⟩ := scanDir_slot ht
  · obtain ⟨-,heq⟩ := (matches_iff_stored h.terminated hslot hz).mp hm
    have hlen : name.length ≤ 31 := by
      rw [← heq]
      exact length_cString_lt (by decide) (h.terminated slot hslot ha)
    rw [heq,List.take_of_length_le hlen]
  · exact absurd ha hfree

section WriteNew
variable {N : ℕ} (hN : N ≤ 2^28) {d d' : Disk Sector} {name data : Bytes} {slot : ℕ} (h : Layout N d)
  (hst : Stored d name data slot d')

include hst in
theorem stored_sameEntry {j : ℕ} (hj : j ≠ slot) : SameEntry (dirOf d) (dirOf d') j := by
  rw [hst.dir]
  exact setEntry_sameEntry hj

include hst in
theorem stored_below : ∀ x, fsDataLba ≤ x → x < highestEnd (dirOf d) → d' x = d x := by
  intro x hx hlt
  rw [hst.data x hx]
  exact overwrite_of_outside (Or.inl hlt)

include hN h hst

/-- The content of an entry that stays. -/
theorem stored_content {j : ℕ} (hj : j < fsMaxFiles) (hne : j ≠ slot) (ha : Active (dirOf d) j) :
    content d' j = content d j := h.content_same hN hj ha (stored_sameEntry hst hne) (stored_below hst)

theorem stored_data (hlen : data.length + 511 < 2^32) : content d' slot = data := by
  have hbound := h.bound
  unfold content
  rw [hst.dir,newDir,setEntry_startLba (by omega),setEntry_fileSize (by omega),extent_congr (d := withData d data) hlen]
  · exact extent_overwrite d _ hlen
  · intro x hx _
    exact hst.data x (le_trans fsDataLba_le_highestEnd hx)

variable (hnil : name ≠ []) (hz : 0 ∉ name) (ht : (scanDir (dirOf d) name).target = some slot)
include hz ht

omit hN in
theorem stored_matches (m : Name) : Matches (dirOf d') m.val slot → m.val = name.take 31 := by
  intro hm
  have hterm : Terminated (dirOf d') := by
    rw [hst.dir]
    exact setEntry_terminated h.terminated
  obtain ⟨-,heq⟩ := (matches_iff_stored hterm (scanDir_slot ht).1 m.property.2.2).mp hm
  rw [← heq,hst.dir]
  exact setEntry_stored hz

/-- Other names are not affected. -/
theorem fileOf_otherName {m : Name} (hm : m.val ≠ name.take 31) : fileOf d' m.val = fileOf d m.val := by
  have hold : ¬ Matches (dirOf d) m.val slot := by
    intro hmatch
    obtain ⟨ha,heq⟩ := (matches_iff_stored h.terminated (scanDir_slot ht).1 m.property.2.2).mp hmatch
    exact hm (heq.symm.trans (slot_named h hz ht ha))
  apply fileOf_same
  · intro j hj
    by_cases hjs : j = slot
    · subst hjs
      exact iff_of_false (fun hmatch => hm (stored_matches h hst hz ht m hmatch)) hold
    · exact (stored_sameEntry hst hjs).matches m
  · intro j hj hmatch
    have hjs : j ≠ slot := by
      rintro rfl
      exact hold hmatch
    exact stored_content hN h hst hj hjs hmatch.1

include hnil

omit hN h ht in
theorem stored_cutName : Matches (dirOf d') (name.take 31) slot := by
  rw [hst.dir]
  refine ⟨setEntry_active hnil hz,?_⟩
  apply strcmpEq_of_getD
  intro k hk
  apply setEntry_byte
  rw [List.length_take] at hk
  omega

omit hz ht hnil in
theorem fileOf_shadowed (m : Name) (hs : ∃ j < slot, Matches (dirOf d) m.val j) (hslot : slot < fsMaxFiles) :
    fileOf d' m.val = fileOf d m.val := by
  obtain ⟨j,hj,hm⟩ := hs
  cases hf : findEntry (dirOf d) m.val with
  | none => exact absurd hm (findEntry_none.mp hf j (lt_trans hj hslot))
  | some i =>
    obtain ⟨hi,hmi,hfirst⟩ := findEntry_eq_some.mp hf
    have his : i < slot := by
      by_contra hge
      exact hfirst j (by omega) hm
    have hsame : ∀ k ≤ i, (Matches (dirOf d') m.val k ↔ Matches (dirOf d) m.val k) :=
      fun k hk => (stored_sameEntry hst (by omega)).matches m
    have hf' : findEntry (dirOf d') m.val = some i := by
      rw [findEntry_eq_some]
      exact ⟨hi,(hsame i (le_refl i)).mpr hmi,fun k hk hmk => hfirst k hk ((hsame k (by omega)).mp hmk)⟩
    rw [fileOf_found hf,fileOf_found hf',stored_content hN h hst hi (by omega) hmi.1]

theorem fileOf_visible (hlen : data.length + 511 < 2^32)
    (hs : ¬ ∃ j < slot, Matches (dirOf d) (name.take 31) j) : fileOf d' (name.take 31) = some data := by
  have hslot := (scanDir_slot ht).1
  have hf : findEntry (dirOf d') (name.take 31) = some slot := by
    rw [findEntry_eq_some]
    refine ⟨hslot,stored_cutName hst hnil hz,?_⟩
    intro j hj hm
    have hsame := (stored_sameEntry hst (show j ≠ slot by omega)).matches ⟨name.take 31,cut_isName hnil hz⟩
    exact hs ⟨j,hj,hsame.mp hm⟩
  rw [fileOf_found hf,stored_data hN h hst hlen]

/-- A stored entry goes unnoticed when an earlier entry hides it, or when it repeats the content of its name. -/
theorem stored_unchanged_iff (hlen : data.length + 511 < 2^32) (hsuper : d' fsSuperLba = d fsSuperLba) :
    Unchanged d d' ↔ (∃ j < slot, Matches (dirOf d) (name.take 31) j) ∨ fileOf d (name.take 31) = some data := by
  have hslot := (scanDir_slot ht).1
  constructor
  · intro hu
    by_cases hs : ∃ j < slot, Matches (dirOf d) (name.take 31) j
    · exact Or.inl hs
    · right
      rw [← fileOf_visible hN h hst hnil hz ht hlen hs]
      exact (hu.files ⟨name.take 31,cut_isName hnil hz⟩).symm
  · intro hcase
    refine ⟨?_,by rw [hsuper]⟩
    intro m
    by_cases hm : m.val = name.take 31
    · by_cases hs : ∃ j < slot, Matches (dirOf d) (name.take 31) j
      · rw [← hm] at hs
        exact fileOf_shadowed hN h hst m hs hslot
      · rw [hm,fileOf_visible hN h hst hnil hz ht hlen hs]
        exact (hcase.resolve_left hs).symm
    · exact fileOf_otherName hN h hst hz ht hm

end WriteNew

/-! ## `fs_delete` -/

/-- The next entry of the same name exists and has the same content. -/
def NextSame (d : Disk Sector) (name : Bytes) (i : ℕ) : Prop := ∃ j, i < j ∧ j < fsMaxFiles ∧
  Matches (dirOf d) name j ∧ (∀ l, i < l → l < j → ¬ Matches (dirOf d) name l) ∧ content d j = content d i

section Delete
variable {N : ℕ} (hN : N ≤ 2^28) {d d' : Disk Sector} {name : Bytes} {i : ℕ} (h : Layout N d)
  (hdir : dirOf d' = erasedDir d i) (hdata : ∀ x, fsDataLba ≤ x → d' x = d x)

include hdir in
theorem erased_sameEntry {j : ℕ} (hj : j ≠ i) : SameEntry (dirOf d) (dirOf d') j := by
  rw [hdir]
  exact erasedDir_sameEntry d hj

include hdir in
theorem erased_matches (m : Name) (j : ℕ) : Matches (dirOf d') m.val j ↔ j ≠ i ∧ Matches (dirOf d) m.val j := by
  by_cases hj : j = i
  · subst hj
    refine iff_of_false ?_ (fun hm => hm.1 rfl)
    rw [hdir]
    exact fun hm => erasedDir_inactive d j hm.1
  · rw [(erased_sameEntry hdir hj).matches m]
    exact ⟨fun hm => ⟨hj,hm⟩,fun hm => hm.2⟩

include hN h hdir hdata

theorem erased_content {j : ℕ} (hj : j < fsMaxFiles) (hne : j ≠ i) (ha : Active (dirOf d) j) :
    content d' j = content d j := h.content_same hN hj ha (erased_sameEntry hdir hne) (fun x hx _ => hdata x hx)

/-- An erased entry goes unnoticed when the next entry of its name has the same content. -/
theorem erased_unchanged_iff {m : Name} (hf : findEntry (dirOf d) m.val = some i)
    (hsuper : d' fsSuperLba = d fsSuperLba) : Unchanged d d' ↔ NextSame d m.val i := by
  obtain ⟨hi,hmi,hfirst⟩ := findEntry_eq_some.mp hf
  constructor
  · intro hu
    have hfile := hu.files m
    rw [fileOf_found hf] at hfile
    cases hf' : findEntry (dirOf d') m.val with
    | none =>
      rw [fileOf,hf'] at hfile
      cases hfile
    | some j =>
      obtain ⟨hj,hmj,hfirst'⟩ := findEntry_eq_some.mp hf'
      obtain ⟨hji,hmj⟩ := (erased_matches hdir m j).mp hmj
      rw [fileOf_found hf',erased_content hN h hdir hdata hj hji hmj.1,Option.some.injEq] at hfile
      have hlt : i < j := by
        by_contra hge
        exact hfirst j (by omega) hmj
      refine ⟨j,hlt,hj,hmj,?_,hfile⟩
      intro l hil hlj hml
      exact hfirst' l hlj ((erased_matches hdir m l).mpr ⟨by omega,hml⟩)
  · rintro ⟨j,hlt,hj,hmj,hbetween,hsame⟩
    have hf' : findEntry (dirOf d') m.val = some j := by
      rw [findEntry_eq_some]
      refine ⟨hj,(erased_matches hdir m j).mpr ⟨by omega,hmj⟩,?_⟩
      intro l hl hml
      obtain ⟨hli,hml⟩ := (erased_matches hdir m l).mp hml
      rcases Nat.lt_or_gt_of_ne hli with hlt' | hgt
      · exact hfirst l hlt' hml
      · exact hbetween l hgt hl hml
    refine ⟨?_,by rw [hsuper]⟩
    intro other
    by_cases hne : other = m
    · subst hne
      rw [fileOf_found hf,fileOf_found hf',erased_content hN h hdir hdata hj (by omega) hmj.1,hsame]
    · have hother : ∀ k, Matches (dirOf d) other.val k → k ≠ i := by
        rintro k hk rfl
        exact hne (matches_unique hk hmi)
      apply fileOf_same
      · intro k _
        rw [erased_matches hdir other k]
        exact ⟨fun hk => hk.2,fun hk => ⟨hother k hk,hk⟩⟩
      · intro k hk hm
        exact erased_content hN h hdir hdata hk (hother k hm) hm.1

end Delete

/-! ## Reachable disks -/

section Keep
variable {N : ℕ} {d d' : Disk Sector}

/-- Entries may vanish, the others stay. -/
theorem Layout.subset (h : Layout N d) (hmagic : magicOk (d' fsSuperLba) = true)
    (hsame : ∀ i < fsMaxFiles, Active (dirOf d') i → SameEntry (dirOf d) (dirOf d') i) : Layout N d' := by
  have hle := highestEnd_le_iff.mp h.bound
  constructor
  · exact hmagic
  · intro i hi ha
    have hs := hsame i hi ha
    rw [hs _ (by omega) (by omega)]
    exact h.terminated i hi (hs.active.mp ha)
  · refine highestEnd_le_iff.mpr ⟨hle.1,?_⟩
    intro i hi ha
    have hs := hsame i hi ha
    have he := hle.2 i hi (hs.active.mp ha)
    unfold endLba at *
    rw [hs.startLba,hs.fileSize]
    exact he
  · intro i hi ha
    have hs := hsame i hi ha
    exact SameEntry.placed hs (h.placed i hi (hs.active.mp ha))

theorem Formatted.layout (h : Formatted d) (hlba : fsDataLba ≤ N) : Layout N d := by
  have hnone : ∀ i, ¬ Active (dirOf d) i := by
    intro i
    rw [h.dir]
    exact not_active_blank i
  constructor
  · rw [h.super]
    exact magicOk_blankSuper
  · exact fun i _ ha => absurd ha (hnone i)
  · exact highestEnd_le_iff.mpr ⟨hlba,fun i _ ha => absurd ha (hnone i)⟩
  · exact fun i _ ha => absurd ha (hnone i)

variable (hN : N ≤ 2^28) {fails : ℕ → Bool} {name data : Bytes}
include hN

theorem layout_writeNew (h : Layout N d) (hlen : data.length + 511 < 2^32) :
    Layout N (faultyRun (drive N) fails (fsWriteNew name data) 0 d).disk := by
  by_cases hw : ∃ slot, EntryWritten N fails d name data slot
  · obtain ⟨slot,hw⟩ := hw
    obtain ⟨hst,-,hsuper⟩ := fsWriteNew_stored hN h.bound hw
    have hfit := payload_fits h.bound hw.payload
    have hbound := h.bound
    constructor
    · rw [hsuper]
      unfold newSuper
      split
      · split
        · exact h.magic
        · rw [magicOk_setNumFiles]
          exact h.magic
      · exact h.magic
    · rw [hst.dir]
      exact setEntry_terminated h.terminated
    · rw [hst.dir]
      exact highestEnd_newDir hN h.bound hfit
    · intro i hi ha
      by_cases his : i = slot
      · subst his
        have hs : startLba (newDir d name data i) i = highestEnd (dirOf d) := setEntry_startLba (by omega)
        have hz : fileSize (newDir d name data i) i = data.length := setEntry_fileSize (by omega)
        rw [hst.dir]
        constructor
        · rw [hs]
          exact fsDataLba_le_highestEnd
        · rw [hs,hz]
          exact hfit
        · rw [hz]
          exact hlen
      · have hsame := stored_sameEntry hst his
        exact SameEntry.placed hsame (h.placed i hi (hsame.active.mp ha))
  · obtain ⟨hkept,-⟩ := fsWriteNew_kept hN h.bound (fun slot hs => hw ⟨slot,hs⟩)
    apply h.subset
    · rw [hkept.super]
      exact h.magic
    · intro i _ _ x _ _
      rw [hkept.dir]

theorem layout_delete (h : Layout N d) : Layout N (faultyRun (drive N) fails (fsDelete name) 0 d).disk := by
  by_cases hw : ∃ i, EntryErased N fails d name i
  · obtain ⟨i,hw⟩ := hw
    obtain ⟨hdir,-,-,hsuper⟩ := fsDelete_erased hN hw
    apply h.subset
    · rw [hsuper]
      split
      · rw [magicOk_setNumFiles]
        exact h.magic
      · exact h.magic
    · intro j _ ha
      apply erased_sameEntry hdir
      rintro rfl
      rw [hdir] at ha
      exact erasedDir_inactive d j ha
  · obtain ⟨hdir,-,hsuper,-⟩ := fsDelete_kept hN (fun i hi => hw ⟨i,hi⟩)
    apply h.subset
    · rw [hsuper]
      exact h.magic
    · intro i _ _ x _ _
      rw [hdir]

/-- A format that fails half-way has erased the entries of the sectors it wrote. -/
theorem layout_format (h : Layout N d) : Layout N (faultyRun (drive N) fails fsFormat 0 d).disk := by
  have hplace : ∀ x, (drive N).accepts x = true → (drive N).place x = x := fun x hx => place_of_accepts hN hx
  rw [fsFormat,faultyRun_bind,faultyRun_writeSuper hplace]
  cases hp : passes (drive N) fails 0 fsSuperLba with
  | false => exact h
  | true =>
    dsimp only
    rw [if_pos rfl,if_pos rfl,faultyRun_bind]
    obtain ⟨j,-,hdisk,-⟩ := @faultyRun_writeDir _ fails hplace (0+1) (Function.update d fsSuperLba blankSuper)
      (fun _ => 0)
    have hkeep : Layout N (faultyRun (drive N) fails (writeDir (fun _ => 0)) (0+1)
        (Function.update d fsSuperLba blankSuper)).disk := by
      rw [hdisk]
      apply h.subset
      · rw [(dirOnly_overwrite _ _ _).super,Function.update_self]
        exact magicOk_blankSuper
      · intro i hi ha x h1 h2
        have hi' : i < 64 := hi
        have hold : dirOf (Function.update d fsSuperLba blankSuper) = dirOf d := by
          apply dirOf_congr
          intro y hy _
          exact Function.update_of_ne (by simp only [fsSuperLba]; omega) _ _
        have hcut : ∀ y, entryAddr i ≤ y → y < entryAddr i+64 →
            dirOf (overwrite (Function.update d fsSuperLba blankSuper) fsDirLba
              ((dirSectors (fun _ => 0)).take j)) y = if i/8 < j then 0 else dirOf d y := by
          intro y hy1 hy2
          unfold entryAddr at hy1 hy2
          rw [dirOf_overwrite _ _ j (by omega),hold,show y/512 = i/8 by omega]
        have hlate : ¬ i/8 < j := by
          intro hlt
          apply ha.1
          rw [hcut _ (le_refl _) (by omega),if_pos hlt]
        rw [hcut x h1 h2,if_neg hlate]
    split <;> exact hkeep

end Keep

/-- Disks reached from a completed `fs_format` by calls in which any transfers failed. -/
inductive Reachable (N : ℕ) : Disk Sector → Prop
  | start {d : Disk Sector} (fails : ℕ → Bool) : (faultyRun (drive N) fails fsFormat 0 d).result = 0 →
      Reachable N (faultyRun (drive N) fails fsFormat 0 d).disk
  | format {d : Disk Sector} (fails : ℕ → Bool) : Reachable N d →
      Reachable N (faultyRun (drive N) fails fsFormat 0 d).disk
  | writeNew {d : Disk Sector} (name data : Bytes) (fails : ℕ → Bool) : Reachable N d →
      data.length + 511 < 2^32 → Reachable N (faultyRun (drive N) fails (fsWriteNew name data) 0 d).disk
  | delete {d : Disk Sector} (name : Bytes) (fails : ℕ → Bool) : Reachable N d →
      Reachable N (faultyRun (drive N) fails (fsDelete name) 0 d).disk

theorem Reachable.layout {N : ℕ} (hN : N ≤ 2^28) {d : Disk Sector} (h : Reachable N d) : Layout N d := by
  induction h with
  | start fails hr =>
    exact Formatted.layout ((always_faulty (always_fsFormat hN _) fails 0).2 hr) (fsFormat_fits hN hr)
  | format fails _ ih => exact layout_format hN ih
  | writeNew name data fails _ hlen ih => exact layout_writeNew hN ih hlen
  | delete name fails _ ih => exact layout_delete hN ih

/-! ## Failed calls -/

section Failed
variable {N : ℕ} (hN : N ≤ 2^28) {d : Disk Sector} (h : Layout N d) {name data : Bytes} (hz : 0 ∉ name)
  (fails : ℕ → Bool)
include hN h hz

theorem fsWriteNew_atomic_iff (hlen : data.length + 511 < 2^32) :
    ((faultyRun (drive N) fails (fsWriteNew name data) 0 d).result = -1 →
        Unchanged d (faultyRun (drive N) fails (fsWriteNew name data) 0 d).disk) ↔
      ∀ slot, EntryWritten N fails d name data slot → Finished N fails data ∨
        (∃ j < slot, Matches (dirOf d) (name.take 31) j) ∨ fileOf d (name.take 31) = some data := by
  by_cases hw : ∃ slot, EntryWritten N fails d name data slot
  · obtain ⟨slot,hw⟩ := hw
    obtain ⟨hst,hr,hsuper⟩ := fsWriteNew_stored hN h.bound hw
    by_cases hfin : Finished N fails data
    · rw [if_pos hfin] at hr
      rw [hr]
      exact iff_of_true (fun h0 => absurd h0 (by decide)) (fun _ _ => Or.inl hfin)
    · rw [if_neg hfin] at hr hsuper
      have hiff := stored_unchanged_iff hN h hst hw.name_ne hz hw.target hlen hsuper
      constructor
      · intro hu slot' hw'
        have hslot : some slot = some slot' := hw.target.symm.trans hw'.target
        cases hslot
        exact Or.inr (hiff.mp (hu hr))
      · intro hcase _
        exact hiff.mpr ((hcase slot hw).resolve_left hfin)
  · obtain ⟨hkept,-⟩ := fsWriteNew_kept hN h.bound (fun slot hs => hw ⟨slot,hs⟩)
    exact iff_of_true (fun _ => unchanged_kept hN h hkept.dir hkept.super hkept.below)
      (fun slot hs => absurd ⟨slot,hs⟩ hw)

theorem fsDelete_atomic_iff :
    ((faultyRun (drive N) fails (fsDelete name) 0 d).result = -1 →
        Unchanged d (faultyRun (drive N) fails (fsDelete name) 0 d).disk) ↔
      ∀ i, EntryErased N fails d name i → DirWritten N fails ∨ NextSame d name i := by
  by_cases hw : ∃ i, EntryErased N fails d name i
  · obtain ⟨i,hw⟩ := hw
    obtain ⟨hdir,hdata,hr,hsuper⟩ := fsDelete_erased hN hw
    by_cases hfin : DirWritten N fails
    · rw [if_pos hfin] at hr
      rw [hr]
      exact iff_of_true (fun h0 => absurd h0 (by decide)) (fun _ _ => Or.inl hfin)
    · rw [if_neg hfin] at hr
      rw [if_neg (fun hc => hfin hc.1)] at hsuper
      -- a name that an entry stores has at most 31 bytes
      obtain ⟨hi,hm⟩ := findEntry_some hw.found
      obtain ⟨ha,heq⟩ := (matches_iff_stored h.terminated hi hz).mp hm
      have hlen : name.length ≤ fsNameMax := by
        rw [← heq]
        exact length_cString_lt (by decide) (h.terminated i hi ha)
      have hiff := erased_unchanged_iff hN h hdir hdata (m := ⟨name,hw.name_ne,hlen,hz⟩) hw.found hsuper
      constructor
      · intro hu i' hw'
        have hi' : some i = some i' := hw.found.symm.trans hw'.found
        cases hi'
        exact Or.inr (hiff.mp (hu hr))
      · intro hcase _
        exact hiff.mpr ((hcase i hw).resolve_left hfin)
  · obtain ⟨hdir,hdata,hsuper,-⟩ := fsDelete_kept hN (fun i hi => hw ⟨i,hi⟩)
    exact iff_of_true (fun _ => unchanged_kept hN h hdir hsuper (fun x hx _ => hdata x hx))
      (fun i hi => absurd ⟨i,hi⟩ hw)

end Failed

/-- A failed call changes nothing exactly when it failed before its entry was written, or when the entry makes no
difference. -/
theorem failure_atomic_iff {N : ℕ} (hN : N ≤ 2^28) {d : Disk Sector} (h : Reachable N d) (name data : Bytes)
    (hz : 0 ∉ name) (hlen : data.length + 511 < 2^32) (fails : ℕ → Bool) :
    (((faultyRun (drive N) fails (fsWriteNew name data) 0 d).result = -1 →
        Unchanged d (faultyRun (drive N) fails (fsWriteNew name data) 0 d).disk) ↔
      ∀ slot, EntryWritten N fails d name data slot → Finished N fails data ∨
        (∃ j < slot, Matches (dirOf d) (name.take 31) j) ∨ fileOf d (name.take 31) = some data) ∧
    (((faultyRun (drive N) fails (fsDelete name) 0 d).result = -1 →
        Unchanged d (faultyRun (drive N) fails (fsDelete name) 0 d).disk) ↔
      ∀ i, EntryErased N fails d name i → DirWritten N fails ∨ NextSame d name i) :=
  ⟨fsWriteNew_atomic_iff hN (h.layout hN) hz fails hlen,fsDelete_atomic_iff hN (h.layout hN) hz fails⟩

def emptyDisk : Disk Sector := (faultyRun (drive 200) (fun _ => false) fsFormat 0 (fun _ _ => 0)).disk

theorem emptyDisk_reachable : Reachable 200 emptyDisk := by
  apply Reachable.start
  decide +kernel

/-- A write whose data sector fails leaves the empty volume as it was. -/
theorem failure_atomic_data : Reachable 200 emptyDisk ∧
    ((faultyRun (drive 200) (fun n => n = 9) (fsWriteNew [0x61] [1]) 0 emptyDisk).result = -1 →
      Unchanged emptyDisk (faultyRun (drive 200) (fun n => n = 9) (fsWriteNew [0x61] [1]) 0 emptyDisk).disk) := by
  refine ⟨emptyDisk_reachable,?_⟩
  apply (failure_atomic_iff (by decide) emptyDisk_reachable [0x61] [1] (by decide) (by decide) (fun n => n = 9)).1.mpr
  intro slot hw
  have hp := hw.payload 0 (by decide)
  exact absurd hp (by simp [passes])

/-- The superblock write fails: the call returns -1, and the file is there. -/
theorem failed_write_visible : Reachable 200 emptyDisk ∧
    (faultyRun (drive 200) (fun n => n = 18) (fsWriteNew [0x61] [1]) 0 emptyDisk).result = -1 ∧
    ¬ Unchanged emptyDisk (faultyRun (drive 200) (fun n => n = 18) (fsWriteNew [0x61] [1]) 0 emptyDisk).disk := by
  refine ⟨emptyDisk_reachable,by decide +kernel,?_⟩
  intro hu
  have hold : fileOf emptyDisk [0x61] = none := by decide +kernel
  have hnew : fileOf (faultyRun (drive 200) (fun n => n = 18) (fsWriteNew [0x61] [1]) 0 emptyDisk).disk [0x61] =
      some [1] := by decide +kernel
  have hsame := hu.files ⟨[0x61],by decide⟩
  dsimp only at hsame
  rw [hold,hnew] at hsame
  cases hsame

end VesperOS.FailureAtomicity
