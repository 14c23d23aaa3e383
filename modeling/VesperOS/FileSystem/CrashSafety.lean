import VesperOS.FileSystem.DirectoryEdits

/-! # Crash consistency

Whatever fails inside `fs_write_new` or `fs_delete`, and wherever execution stops,
the disk left behind has the same content for every other name, and the old or the
new content for the name of the call. New data go after all active extents; the
change becomes visible with the one directory sector that holds the entry; the
superblock counter is not used to find files.
-/
namespace VesperOS.CrashSafety
open ByteMemory DiskProgram VesperFs DiskVolume Transfers DirectoryEdits

/-- The disks that an operation which sets the content of `name` to `new` may leave of `d`. -/
structure Consistent (N : ℕ) (d : Disk Sector) (name : Name) (new : Option Bytes) (d' : Disk Sector) : Prop where
  volume : Volume N d'
  others : ∀ other : Name, other ≠ name → fileOf d' other.val = fileOf d other.val
  named : fileOf d' name.val = fileOf d name.val ∨ fileOf d' name.val = new

section Steps
variable {N : ℕ} {d d₁ d₂ : Disk Sector} {name : Name} {new : Option Bytes}

theorem Consistent.refl (h : Volume N d) : Consistent N d name new d := ⟨h,fun _ _ => rfl,Or.inl rfl⟩

/-- A further change that no content depends on. -/
theorem Consistent.same (h : Consistent N d name new d₁) (hv : Volume N d₂)
    (hf : ∀ name, fileOf d₂ name = fileOf d₁ name) : Consistent N d name new d₂ := by
  refine ⟨hv,?_,?_⟩
  · intro other hne
    rw [hf]
    exact h.others other hne
  · rw [hf]
    exact h.named

end Steps

section Operations
variable {N : ℕ} (hN : N ≤ 2^28) {d : Disk Sector} {name : Name}
include hN

theorem always_writeSuper {new : Option Bytes} {d₁ : Disk Sector} {sb : Sector} (h : Consistent N d name new d₁)
    (hsb : magicOk sb = true) :
    Always (drive N) (Consistent N d name new) (fun _ _ => True) (writeSuper sb) d₁ := by
  apply (always_ataWriteSectors hN ?_).mono (fun _ _ _ => trivial)
  intro j
  obtain ⟨hv,hf⟩ := volume_super h.volume hsb j
  exact h.same hv hf

/-- The second half of `fs_write_new`, from a disk that holds the data at the end of all extents. -/
theorem always_commit (h : Volume N d) {d₁ : Disk Sector} {slot : ℕ} {data : Bytes} {isOverwrite : Bool}
    {sb : Sector} (hsel : Selected (dirOf d) name slot isOverwrite) (hlen : data.length + 511 < 2^32)
    (hfit : highestEnd (dirOf d) + sectorsOf data.length ≤ N)
    (hd₁ : d₁ = overwrite d (highestEnd (dirOf d)) (dataSectors (sectorsOf data.length) data))
    (hsb : magicOk sb = true) :
    Always (drive N) (Consistent N d name (some data)) (fun _ _ => True)
      (do
        if ← writeDir (setEntry (dirOf d) slot name.val (highestEnd (dirOf d)) data.length) then
          if ← writeSuper sb then pure (0 : ℤ) else pure (-1)
        else pure (-1)) d₁ := by
  obtain ⟨hv,hf⟩ := volume_above hN h (dataSectors (sectorsOf data.length) data)
  have hdir := dirOf_above d (dataSectors (sectorsOf data.length) data)
  rw [← hd₁] at hv hf hdir
  have hone : OneSector (dirOf d₁) (setEntry (dirOf d) slot name.val (highestEnd (dirOf d)) data.length)
      (slot/8) := by
    rw [hdir]
    exact oneSector_of_entry hsel.lt fun x hx => setEntry_of_outside hx
  have hwrite : ∀ d₂, DirOnly d₁ d₂ → dirOf d₂ = dirOf d₁ ∨
      dirOf d₂ = setEntry (dirOf d) slot name.val (highestEnd (dirOf d)) data.length →
      Consistent N d name (some data) d₂ := by
    intro d₂ hd₂ hcase
    rcases hcase with hdir₂ | hdir₂
    · obtain ⟨hv₂,hf₂⟩ := volume_sameDir hv hd₂ hdir₂
      exact ((Consistent.refl h).same hv hf).same hv₂ hf₂
    · obtain ⟨hv₂,hn,ho⟩ := volume_written hN h hsel hlen hfit hd₁ hd₂ hdir₂
      exact ⟨hv₂,ho,Or.inr hn⟩
  apply (always_writeDir hN hone hwrite).bind
  rintro ok d₂ hq₂ _
  cases ok with
  | false => exact Always.pure hq₂ trivial
  | true =>
    apply (always_writeSuper hN hq₂ hsb).bind
    rintro ok d₃ hq₃ _
    cases ok <;> exact Always.pure hq₃ trivial

theorem always_fsWriteNew (h : Volume N d) {data : Bytes} (hlen : data.length + 511 < 2^32) :
    Always (drive N) (Consistent N d name (some data)) (fun _ _ => True) (fsWriteNew name.val data) d := by
  have hrefl : Consistent N d name (some data) d := Consistent.refl h
  unfold fsWriteNew
  rw [if_neg name.property.1]
  apply (always_readSuper hN hrefl).bind
  rintro r d' _ ⟨rfl,rfl | rfl⟩
  · exact Always.pure hrefl trivial
  dsimp only
  apply (always_readDir hN hrefl).bind
  rintro r d' _ ⟨rfl,rfl | ⟨hlba,rfl⟩⟩
  · exact Always.pure hrefl trivial
  dsimp only
  rw [if_neg (by rw [h.magic]; decide)]
  cases ht : (scanDir (dirOf d') name.val).target with
  | none => exact Always.pure hrefl trivial
  | some slot =>
    have hsel := scanDir_selected h ht
    have hnext := highestEnd_le h hN hlba
    have hsectors : sectorsOf data.length ≤ 2^23 := by
      unfold sectorsOf
      omega
    have hq : ∀ j, Consistent N d' name (some data)
        (overwrite d' (highestEnd (dirOf d')) ((dataSectors (sectorsOf data.length) data).take j)) := by
      intro j
      obtain ⟨hv,hf⟩ := volume_above hN h ((dataSectors (sectorsOf data.length) data).take j)
      exact hrefl.same hv hf
    dsimp only
    rw [scanDir_next,writeData_eq data (by omega),Nat.add_zero]
    apply (always_ataWriteSectors hN hq).bind
    rintro ok d₁ hq₁ ⟨j,hd₁,hok⟩
    cases ok with
    | false => exact Always.pure hq₁ trivial
    | true =>
      obtain ⟨hj,hfit⟩ := hok rfl
      rw [List.take_of_length_le hj] at hd₁
      rw [← List.length_eq_zero_iff,length_dataSectors] at hfit
      have hsb : magicOk (if (scanDir (dirOf d') name.val).isOverwrite = true then d' fsSuperLba
          else setNumFiles (d' fsSuperLba) (numFiles (d' fsSuperLba)+1)) = true := by
        split
        · exact h.magic
        · rw [magicOk_setNumFiles]
          exact h.magic
      exact always_commit hN h hsel hlen (by omega) hd₁ hsb

theorem always_fsDelete (h : Volume N d) :
    Always (drive N) (Consistent N d name none) (fun _ _ => True) (fsDelete name.val) d := by
  have hrefl : Consistent N d name none d := Consistent.refl h
  unfold fsDelete
  rw [if_neg name.property.1]
  apply (always_readDir hN hrefl).bind
  rintro r d' _ ⟨rfl,rfl | ⟨_,rfl⟩⟩
  · exact Always.pure hrefl trivial
  dsimp only
  cases hf : findEntry (dirOf d') name.val with
  | none => exact Always.pure hrefl trivial
  | some i =>
    obtain ⟨hi,hm⟩ := findEntry_some hf
    have hone : OneSector (dirOf d') (write32 (dirOf d') (entryAddr i+40) 1) (i/8) :=
      oneSector_of_entry hi fun x hx => write32_of_outside _ (by omega)
    have hwrite : ∀ d₁, DirOnly d' d₁ → dirOf d₁ = dirOf d' ∨
        dirOf d₁ = write32 (dirOf d') (entryAddr i+40) 1 → Consistent N d' name none d₁ := by
      intro d₁ hd₁ hcase
      rcases hcase with hdir | hdir
      · obtain ⟨hv,hsame⟩ := volume_sameDir h hd₁ hdir
        exact hrefl.same hv hsame
      · obtain ⟨hv,hn,ho⟩ := volume_erase h hi hm hd₁ hdir
        exact ⟨hv,ho,Or.inr hn⟩
    dsimp only
    apply (always_writeDir hN hone hwrite).bind
    rintro ok d₁ hq₁ _
    cases ok with
    | false => exact Always.pure hq₁ trivial
    | true =>
      apply (always_readSuper hN hq₁).bind
      rintro r d₂ _ ⟨rfl,rfl | rfl⟩
      · exact Always.pure hq₁ trivial
      · dsimp only
        split
        · apply (always_writeSuper hN hq₁ ?_).bind
          · rintro _ d₃ hq₃ _
            exact Always.pure hq₃ trivial
          · rw [magicOk_setNumFiles]
            exact hq₁.volume.magic
        · exact Always.pure hq₁ trivial

end Operations

/-! ## Histories -/

/-- Disks reached from a completed `fs_format` by calls in which anything may have failed. -/
inductive Reached (N : ℕ) : Disk Sector → Prop
  | format {d d' : Disk Sector} : Exec (drive N) d fsFormat (some 0) d' → Reached N d'
  | writeNew {d d' : Disk Sector} {r : Option ℤ} (name : Name) (data : Bytes) : Reached N d →
      data.length + 511 < 2^32 → Exec (drive N) d (fsWriteNew name.val data) r d' → Reached N d'
  | delete {d d' : Disk Sector} {r : Option ℤ} (name : Name) : Reached N d →
      Exec (drive N) d (fsDelete name.val) r d' → Reached N d'

theorem Reached.volume {N : ℕ} (hN : N ≤ 2^28) {d : Disk Sector} (h : Reached N d) : Volume N d := by
  induction h with
  | format he => exact (((always_fsFormat hN _).sound he).2 0 rfl rfl).volume N
  | writeNew name data _ hlen he ih => exact ((always_fsWriteNew hN ih hlen).sound he).1.volume
  | delete name _ he ih => exact ((always_fsDelete hN ih).sound he).1.volume

/-- Every other name keeps its content, and `name` has its old content or `new`. -/
def OldOrNew (d : Disk Sector) (name : Name) (new : Option Bytes) (d' : Disk Sector) : Prop :=
  (∀ other : Name, other ≠ name → fileOf d' other.val = fileOf d other.val) ∧
    (fileOf d' name.val = fileOf d name.val ∨ fileOf d' name.val = new)

theorem crash_consistent {N : ℕ} (hN : N ≤ 2^28) {d d' : Disk Sector} (h : Reached N d) (name : Name) (r : Option ℤ) :
    (∀ data : Bytes, data.length + 511 < 2^32 → Exec (drive N) d (fsWriteNew name.val data) r d' →
      OldOrNew d name (some data) d') ∧
    (Exec (drive N) d (fsDelete name.val) r d' → OldOrNew d name none d') := by
  have hv := h.volume hN
  constructor
  · intro data hlen he
    have hc := ((always_fsWriteNew hN hv hlen).sound he).1
    exact ⟨hc.others,hc.named⟩
  · intro he
    have hc := ((always_fsDelete hN hv).sound he).1
    exact ⟨hc.others,hc.named⟩

def sampleName : Name := ⟨[0x61],by decide⟩

/-- The file `a` is written again, and the machine stops between the two data sectors or between the first two sectors
of the directory. -/
theorem crash_consistent_stopped : ∃ d, Reached 200 d ∧ fileOf d sampleName.val = some [1,2,3] ∧
    ∀ n ∈ [10,12], OldOrNew d sampleName (some (List.replicate 600 4))
      (stopAfter (drive 200) n (fsWriteNew sampleName.val (List.replicate 600 4)) d) := by
  obtain ⟨d,hrun,_⟩ := run_fsFormat (by decide : 200 ≤ 2^28) (by decide) (fun _ _ => 0)
  have he := exec_run (drive 200) fsFormat (fun _ _ => 0)
  have hfile : fileOf (run (drive 200) (fsWriteNew sampleName.val [1,2,3]) (run (drive 200) fsFormat fun _ _ => 0).2).2
      sampleName.val = some [1,2,3] := by
    decide +kernel
  rw [hrun] at he hfile
  have hr := Reached.writeNew sampleName [1,2,3] (.format he) (by decide) (exec_run _ _ d)
  have hlen : (List.replicate 600 (4 : UInt8)).length+511 < 2^32 := by
    rw [List.length_replicate]
    decide
  exact ⟨_,hr,hfile,fun n _ => (crash_consistent (by decide) hr sampleName _).1 _ hlen (exec_stopAfter _ n _ _)⟩

end VesperOS.CrashSafety
