import VesperOS.FileSystem.MapRefinement

/-! # The write command

`cmd_write` of `shell.c` on a disk without faults. The first word of the argument is the
file name, cut after 31 bytes; what follows it and the spaces behind it is the content.
A longer word is cut in the middle, and its rest becomes part of the content.
-/
namespace VesperOS.WriteCommand
open ByteMemory DiskProgram VesperFs DiskVolume Transfers DirectoryEdits MapRefinement

/-- `fs_init`: the superblock has the magic and the version. -/
def fsInit : FsProg Bool := do
  match ← readSuper with
  | none => pure false
  | some sb => pure (magicOk sb && read32 (sectorMem sb) 8 = 1)

/-- The first loop: the file name, at most `limit` bytes of it, and the rest of the argument. -/
def nameLoop : ℕ → Bytes → Bytes × Bytes
  | 0, args => ([],args)
  | _+1, [] => ([],[])
  | limit+1, c :: args => if c = 0x20 then ([],c :: args) else (c :: (nameLoop limit args).1,(nameLoop limit args).2)

/-- The messages of `cmd_write`: the usage, "No VesperFS. Run 'mkfs' first.", "Written: " with the name and the
number of bytes, and "Write failed." -/
inductive WriteReport where
  | usage
  | noVolume
  | written (fname : Bytes) (len : ℕ)
  | failed

def cmdWrite (args : Bytes) : FsProg WriteReport :=
  let fname := (nameLoop fsNameMax args).1
  if fname = [] then pure .usage
  else do
    let content := (nameLoop fsNameMax args).2.dropWhile (· = 0x20)
    if ← fsInit then
      if (← fsWriteNew fname content) = 0 then pure (.written fname content.length) else pure .failed
    else pure .noVolume

/-- When success is reported, the named file has this content. -/
def StoresContent (N : ℕ) (d : Disk Sector) (args c : Bytes) : Prop := ∀ fname len,
  (run (drive N) (cmdWrite args) d).1 = .written fname len →
    fileOf (run (drive N) (cmdWrite args) d).2 fname = some c

/-! ## The tokeniser -/

theorem nameLoop_append (limit : ℕ) {w rest : Bytes} (hw : 0x20 ∉ w) (hrest : rest = [] ∨ ∃ tail, rest = 0x20 :: tail) :
    nameLoop limit (w++rest) = (w.take limit,w.drop limit++rest) := by
  induction w generalizing limit with
  | nil =>
    cases limit with
    | zero => rfl
    | succ limit =>
      rcases hrest with rfl | ⟨tail,rfl⟩
      · rfl
      · exact if_pos rfl
  | cons c w ih =>
    cases limit with
    | zero => rfl
    | succ limit =>
      have hc : c ≠ 0x20 := by
        rintro rfl
        exact hw List.mem_cons_self
      rw [List.cons_append,nameLoop,if_neg hc,ih limit (fun h => hw (List.mem_cons_of_mem _ h)),
        List.take_succ_cons,List.drop_succ_cons]

theorem dropWhile_spaces {s c : Bytes} (hs : ∀ b ∈ s, b = 0x20) (hc : c.head? ≠ some 0x20) :
    (s++c).dropWhile (· = 0x20) = c := by
  rw [List.dropWhile_append_of_pos (fun b hb => decide_eq_true (hs b hb))]
  cases c with
  | nil => rfl
  | cons b c =>
    apply List.dropWhile_cons_of_neg
    intro hb
    exact hc (congrArg some (of_decide_eq_true hb))

/-- An argument of the documented form: a word, spaces, and a text that starts with no space. -/
structure Argument (w s c : Bytes) : Prop where
  word : w ≠ [] ∧ 0x20 ∉ w
  spaces : s ≠ [] ∧ ∀ b ∈ s, b = 0x20
  text : c.head? ≠ some 0x20
  string : 0 ∉ w++s++c

section Split
variable {w s c : Bytes} (h : Argument w s c)
include h

theorem Argument.split : nameLoop fsNameMax (w++s++c) = (w.take 31,w.drop 31++(s++c)) := by
  rw [List.append_assoc]
  apply nameLoop_append _ h.word.2
  right
  obtain ⟨hne,hall⟩ := h.spaces
  cases s with
  | nil => exact absurd rfl hne
  | cons b s =>
    rw [hall b List.mem_cons_self]
    exact ⟨s++c,rfl⟩

/-- Behind a name that fits, the content starts where it should. -/
theorem Argument.content_short (hw : w.length ≤ 31) : (w.drop 31++(s++c)).dropWhile (· = 0x20) = c := by
  rw [List.drop_eq_nil_of_le hw,List.nil_append]
  exact dropWhile_spaces h.spaces.2 h.text

/-- The rest of a longer word, the spaces and the text together. -/
theorem Argument.content_long (hw : 31 < w.length) :
    (w.drop 31++(s++c)).dropWhile (· = 0x20) = w.drop 31++(s++c) := by
  obtain ⟨b,rest,hb⟩ := List.exists_cons_of_ne_nil (List.drop_eq_nil_iff.not.mpr (not_le.mpr hw))
  rw [hb,List.cons_append]
  apply List.dropWhile_cons_of_neg
  intro hspace
  apply h.word.2
  have hmem : b ∈ w.drop 31 := by
    rw [hb]
    exact List.mem_cons_self
  rw [← of_decide_eq_true hspace]
  exact List.mem_of_mem_drop hmem

/-- The name under which the file is stored. -/
def Argument.fileName : Name := ⟨w.take 31,by
  refine ⟨?_,?_,?_⟩
  · intro he
    rcases List.take_eq_nil_iff.mp he with he | he
    · cases he
    · exact h.word.1 he
  · exact List.length_take_le _ _
  · intro hmem
    exact h.string (List.mem_append_left _ (List.mem_append_left _ (List.mem_of_mem_take hmem)))⟩

end Split

/-! ## The file -/

section Runs
variable {N : ℕ} (hN : N ≤ 2^28) (hlba : fsDataLba ≤ N) {d : Disk Sector} {m : FileMap} {w s c : Bytes}
include hN hlba

theorem run_fsInit (d : Disk Sector) : (run (drive N) fsInit d).2 = d := by
  rw [fsInit,run_bind,run_readSuper hN d (lt_of_lt_of_le (by decide) hlba)]
  rfl

/-- On a formatted disk with room for a text as long as the whole argument, the command succeeds, and the file has
the content that the tokeniser found. -/
theorem run_cmdWrite (hd : History N d m) (hinit : (run (drive N) fsInit d).1 = true) (h : Argument w s c)
    (hlen : (w++s++c).length + 511 < 2^32) (hroom : ¬ Refused N d m h.fileName (w++s++c)) {content : Bytes}
    (hcontent : (w.drop 31++(s++c)).dropWhile (· = 0x20) = content) :
    (run (drive N) (cmdWrite (w++s++c)) d).1 = .written (w.take 31) content.length ∧
      fileOf (run (drive N) (cmdWrite (w++s++c)) d).2 (w.take 31) = some content := by
  obtain ⟨hv,hm⟩ := hd.represents hN hlba
  have hle : content.length ≤ (w++s++c).length := by
    have hdrop := (List.dropWhile_sublist (fun b : UInt8 => decide (b = 0x20)) (l := w.drop 31++(s++c))).length_le
    rw [hcontent] at hdrop
    simp only [List.length_append,List.length_drop] at hdrop ⊢
    omega
  have hfits : ¬ Refused N d m h.fileName content := by
    rintro (hfull | hspace)
    · exact hroom (Or.inl hfull)
    · apply hroom
      right
      unfold sectorsOf at *
      omega
  have hname : ¬ w.take 31 = [] := h.fileName.property.1
  rcases (fsWriteNew_spec hN hlba hv hm h.fileName (show content.length + 511 < 2^32 by omega)).2 with
    ⟨hr,_,hrep⟩ | ⟨_,href,_⟩
  · have hrun : run (drive N) (cmdWrite (w++s++c)) d =
        (.written (w.take 31) content.length,(run (drive N) (fsWriteNew h.fileName.val content) d).2) := by
      rw [cmdWrite,h.split]
      dsimp only
      rw [if_neg hname,hcontent,run_bind,hinit,run_fsInit hN hlba,if_pos rfl,run_bind]
      exact congrArg (fun p => run (drive N) p _) (if_pos hr)
    rw [hrun]
    refine ⟨rfl,?_⟩
    have hlookup := hrep.lookup h.fileName
    rw [Finmap.lookup_insert] at hlookup
    exact hlookup.symm
  · exact absurd href hfits

/-- On a formatted disk with room the file gets exactly the text if and only if the name has at most 31 bytes. -/
theorem write_verbatim_iff (hd : History N d m) (hinit : (run (drive N) fsInit d).1 = true) (h : Argument w s c)
    (hlen : (w++s++c).length + 511 < 2^32) (hroom : ¬ Refused N d m h.fileName (w++s++c)) :
    StoresContent N d (w++s++c) c ↔ w.length ≤ fsNameMax := by
  constructor
  · intro hstores
    by_contra hlong
    obtain ⟨hr,hf⟩ := run_cmdWrite hN hlba hd hinit h hlen hroom (h.content_long (not_le.mp hlong))
    have hcontent := Option.some.inj ((hstores _ _ hr).symm.trans hf)
    have hlength := congrArg List.length hcontent
    simp only [List.length_append,List.length_drop] at hlength
    have hs := List.length_pos_iff.mpr h.spaces.1
    omega
  · intro hshort fname len hr
    obtain ⟨hr',hf⟩ := run_cmdWrite hN hlba hd hinit h hlen hroom (h.content_short hshort)
    rw [hr] at hr'
    cases hr'
    exact hf

end Runs

/-- A freshly formatted disk of 200 sectors. -/
def blankDisk : Disk Sector := (run (drive 200) fsFormat (fun _ _ => 0)).2

theorem super_blankDisk : blankDisk fsSuperLba = blankSuper := by
  obtain ⟨d',hrun,hd'⟩ := run_fsFormat (show 200 ≤ 2^28 by decide) (show fsDataLba ≤ 200 by decide) (fun _ _ => 0)
  unfold blankDisk
  rw [hrun]
  exact hd'.super

theorem fsInit_blankDisk : (run (drive 200) fsInit blankDisk).1 = true := by
  rw [fsInit,run_bind,run_readSuper (by decide) _ (by decide),super_blankDisk]
  decide +kernel

theorem room_blankDisk (name : Name) {data : Bytes} (h : data.length ≤ 512) : ¬ Refused 200 blankDisk ∅ name data := by
  have hd : History 200 blankDisk ∅ := .format _
  obtain ⟨hv,hm⟩ := hd.represents (by decide) (by decide)
  have hend : highestEnd (dirOf blankDisk) ≤ 138 := by
    rw [highestEnd_le_iff]
    refine ⟨by decide,?_⟩
    intro i hi hactive
    obtain ⟨name,hname⟩ := hv.named i hi hactive
    have hfile := (mem_iff_matches hm name).mpr ⟨i,hi,hname⟩
    exact absurd hfile (Finmap.notMem_empty)
  rintro (⟨hcard,_⟩ | hspace)
  · rw [Finmap.keys_empty,Finset.card_empty] at hcard
    exact absurd hcard (by decide)
  · unfold sectorsOf at hspace
    omega

theorem argument_hello : Argument [0x66] [0x20] [0x68,0x69] :=
  ⟨by decide,by simp,by decide,by decide⟩

/-- `write f hi` on that disk. -/
theorem write_verbatim_hello : ¬ Refused 200 blankDisk ∅ argument_hello.fileName [0x66,0x20,0x68,0x69] ∧
    (StoresContent 200 blankDisk ([0x66]++[0x20]++[0x68,0x69]) [0x68,0x69] ↔ [0x66].length ≤ fsNameMax) :=
  ⟨room_blankDisk _ (by decide),
    write_verbatim_iff (by decide) (by decide) (.format _) fsInit_blankDisk argument_hello (by decide)
      (room_blankDisk _ (by decide))⟩

theorem argument_longName : Argument (List.replicate 32 0x61) [0x20] [0x68,0x69] :=
  ⟨by decide,by simp,by decide,by decide⟩

/-- A name of 32 letters `a`. -/
theorem long_name_in_content : ¬ StoresContent 200 blankDisk (List.replicate 32 0x61++[0x20]++[0x68,0x69]) [0x68,0x69] := by
  obtain ⟨hr,hf⟩ := run_cmdWrite (by decide) (by decide) (.format _) fsInit_blankDisk argument_longName (by decide)
    (room_blankDisk _ (by decide)) (argument_longName.content_long (by decide))
  intro hstores
  have hcontent := (hstores _ _ hr).symm.trans hf
  exact absurd hcontent (by decide)

end VesperOS.WriteCommand
