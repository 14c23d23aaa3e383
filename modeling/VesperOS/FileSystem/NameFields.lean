import VesperOS.Base.TracedReads
import VesperOS.Console.Printf
import VesperOS.FileSystem.MapRefinement

/-! # Names of a damaged directory

`fs_ls` and `fs_open` over the bytes of `dir_buf` and of whatever memory lies behind it.
Addresses count from the start of the buffer. The log has a line for every byte read as
part of a name: the entry that the name is meant to belong to, and the address.
-/
namespace VesperOS.NameFields
open ByteMemory DiskProgram VesperFs DiskVolume MapRefinement Vga TracedReads

abbrev Scan := Traced (ℕ × ℕ)

def loadName (m : Mem) (i k : ℕ) : Scan UInt8 := event (i,entryAddr i+k) (m (entryAddr i+k))

/-! ## `string.h` and `vga_puts` on the name of entry `i` -/

def strlen (m : Mem) (i : ℕ) : ℕ → ℕ → Scan ℕ
  | 0, _ => stopped
  | fuel+1, n => do
    let c ← loadName m i n
    if c = 0 then pure n else strlen m i fuel (n+1)

/-- From byte `k` of the name on. -/
def putsName (m : Mem) (i : ℕ) : ℕ → ℕ → Console → Scan Console
  | 0, _, _ => stopped
  | fuel+1, k, con => do
    let c ← loadName m i k
    if c = 0 then pure con else putsName m i fuel (k+1) (vgaPutchar c con)

/-- From byte `k` of the name on, against the rest of the other string. -/
def strcmp (m : Mem) (i : ℕ) : ℕ → ℕ → Bytes → Scan ℤ
  | 0, _, _ => stopped
  | fuel+1, k, b => do
    let c ← loadName m i k
    if c ≠ 0 ∧ b.headD 0 ≠ 0 ∧ c = b.headD 0 then strcmp m i fuel (k+1) b.tail
    else do
      let c ← loadName m i k
      pure ((c.toNat : ℤ)-(b.headD 0).toNat)

/-! ## `fs.c` -/

def ascii (str : String) : Bytes := str.toList.map (fun c => UInt8.ofNat c.toNat)

/-- The body of the loop of `fs_ls`, with `found`. -/
def lsEntry (m : Mem) (fuel i : ℕ) (found : Bool) (con : Console) : Scan (Bool × Console) := do
  let c ← loadName m i 0
  if c = 0 ∨ flags m i = 1 then pure (found,con)
  else do
    let nlen ← strlen m i fuel 0
    let con ← putsName m i fuel 0 con
    let con := vgaPuts (List.replicate (32-nlen) 0x20) con
    let con := Printf.vgaPrintUint (UInt32.ofNat (fileSize m i)) con
    pure (true,vgaPuts (ascii " B\n") con)

def lsEntries (m : Mem) (fuel : ℕ) : List ℕ → Bool → Console → Scan (Bool × Console)
  | [], found, con => pure (found,con)
  | i :: is, found, con => do
    let r ← lsEntry m fuel i found con
    lsEntries m fuel is r.1 r.2

/-- `dirRead` is false where `read_dir` fails. -/
def fsLs (dirRead : Bool) (m : Mem) (fuel : ℕ) (con : Console) : Scan Console :=
  if dirRead then do
    let con := { con with color := 0x0B }
    let con := vgaPuts (ascii "NAME                             SIZE\n") con
    let con := vgaPuts (ascii "-------------------------------- ------\n") con
    let con := { con with color := 0x07 }
    let r ← lsEntries m fuel (List.range fsMaxFiles) false con
    pure (if r.1 then r.2 else vgaPuts (ascii "  (empty)\n") r.2)
  else pure (vgaPuts (ascii "  [FS] disk read error\n") con)

def openEntries (m : Mem) (fuel : ℕ) (name : Bytes) : List ℕ → Scan (Option File)
  | [] => pure none
  | i :: is => do
    let c ← loadName m i 0
    if c = 0 ∨ flags m i = 1 then openEntries m fuel name is
    else do
      let d ← strcmp m i fuel 0 name
      if d = 0 then pure (some ⟨startLba m i,fileSize m i,0,true⟩) else openEntries m fuel name is

def fsOpen (dirRead : Bool) (m : Mem) (fuel : ℕ) (name : Bytes) : Scan (Option File) :=
  if dirRead then openEntries m fuel name (List.range fsMaxFiles) else pure none

/-- A byte of the name field of its entry. -/
def InField (r : ℕ × ℕ) : Prop := entryAddr r.1 ≤ r.2 ∧ r.2 < entryAddr r.1+32

/-- Whatever is opened or listed, and however far the run gets, the names are read inside their fields. -/
structure SafeListing (m : Mem) : Prop where
  lists : ∀ dirRead fuel con, Only InField (fsLs dirRead m fuel con)
  opens : ∀ dirRead fuel name, 0 ∉ name → Only InField (fsOpen dirRead m fuel name)

/-- The name field of entry `i` has a NUL. -/
def Closed (m : Mem) (i : ℕ) : Prop := ∃ k < 32, m (entryAddr i+k) = 0

/-! ## A name with its NUL -/

section Closed
variable {m : Mem} {i e : ℕ}

/-- The loops up to the NUL at offset `e` stay in the field. -/
theorem inField_of_le {k : ℕ} (he : e < 32) (hk : k ≤ e) : InField (i,entryAddr i+k) := ⟨Nat.le_add_right _ _,by dsimp only; omega⟩

theorem strlen_inField (he : e < 32) (hend : m (entryAddr i+e) = 0) (fuel n : ℕ) (hn : n ≤ e) :
    Only InField (strlen m i fuel n) := by
  induction fuel generalizing n with
  | zero => exact .stopped
  | succ fuel ih =>
    refine .event_bind (inField_of_le he hn) ?_
    split
    · exact .pure n
    · rename_i hc
      have hne : n ≠ e := fun h => hc (h ▸ hend)
      exact ih (n+1) (by omega)

theorem putsName_inField (he : e < 32) (hend : m (entryAddr i+e) = 0) (fuel k : ℕ) (hk : k ≤ e) (con : Console) :
    Only InField (putsName m i fuel k con) := by
  induction fuel generalizing k con with
  | zero => exact .stopped
  | succ fuel ih =>
    refine .event_bind (inField_of_le he hk) ?_
    split
    · exact .pure con
    · rename_i hc
      have hne : k ≠ e := fun h => hc (h ▸ hend)
      exact ih (k+1) (by omega) _

theorem strcmp_inField (he : e < 32) (hend : m (entryAddr i+e) = 0) (fuel k : ℕ) (hk : k ≤ e) (b : Bytes) :
    Only InField (strcmp m i fuel k b) := by
  induction fuel generalizing k b with
  | zero => exact .stopped
  | succ fuel ih =>
    refine .event_bind (inField_of_le he hk) ?_
    split
    · rename_i hc
      have hne : k ≠ e := fun h => hc.1 (h ▸ hend)
      exact ih (k+1) (by omega) _
    · exact .event_bind (inField_of_le he hk) (.pure _)

theorem strlen_ends (hend : m (entryAddr i+e) = 0) (fuel n : ℕ) (hn : n ≤ e) (hfuel : e-n < fuel) :
    ∃ len, (strlen m i fuel n).result = some len := by
  induction fuel generalizing n with
  | zero => omega
  | succ fuel ih =>
    rw [strlen,loadName,result_event_bind]
    split
    · exact ⟨n,rfl⟩
    · rename_i hc
      have hne : n ≠ e := fun h => hc (h ▸ hend)
      exact ih (n+1) (by omega) (by omega)

theorem putsName_ends (hend : m (entryAddr i+e) = 0) (fuel k : ℕ) (hk : k ≤ e) (hfuel : e-k < fuel) (con : Console) :
    ∃ con', (putsName m i fuel k con).result = some con' := by
  induction fuel generalizing k con with
  | zero => omega
  | succ fuel ih =>
    rw [putsName,loadName,result_event_bind]
    split
    · exact ⟨con,rfl⟩
    · rename_i hc
      have hne : k ≠ e := fun h => hc (h ▸ hend)
      exact ih (k+1) (by omega) (by omega) _

end Closed

theorem skipped_iff {m : Mem} {i : ℕ} : (m (entryAddr i+0) = 0 ∨ flags m i = 1) ↔ ¬ Active m i := by
  unfold Active
  rw [not_and_or,not_not,not_not,Nat.add_zero]

theorem active_of_kept {m : Mem} {i : ℕ} (h : ¬ (m (entryAddr i+0) = 0 ∨ flags m i = 1)) : Active m i :=
  not_not.mp (skipped_iff.not.mp h)

theorem lsEntry_inField {m : Mem} {i : ℕ} (h : Active m i → Closed m i) (fuel : ℕ) (found : Bool) (con : Console) :
    Only InField (lsEntry m fuel i found con) := by
  refine .event_bind (inField_of_le (e := 31) (by decide) (by decide)) ?_
  split
  · exact .pure _
  · rename_i ha
    obtain ⟨e,he,hend⟩ := h (active_of_kept ha)
    refine (strlen_inField he hend fuel 0 (Nat.zero_le e)).bind ?_
    intro nlen _
    exact (putsName_inField he hend fuel 0 (Nat.zero_le e) con).bind fun _ _ => .pure _

theorem lsEntry_ends {m : Mem} {i : ℕ} (h : Active m i → Closed m i) {fuel : ℕ} (hfuel : 32 ≤ fuel) (found : Bool)
    (con : Console) : ∃ r, (lsEntry m fuel i found con).result = some r := by
  rw [lsEntry,loadName,result_event_bind]
  split
  · exact ⟨_,rfl⟩
  · rename_i ha
    obtain ⟨e,he,hend⟩ := h (active_of_kept ha)
    obtain ⟨nlen,hlen⟩ := strlen_ends hend fuel 0 (Nat.zero_le e) (by omega)
    obtain ⟨con',hputs⟩ := putsName_ends hend fuel 0 (Nat.zero_le e) (by omega) con
    rw [result_bind hlen,result_bind hputs]
    exact ⟨_,rfl⟩

theorem lsEntries_inField {m : Mem} (is : List ℕ) (h : ∀ i ∈ is, Active m i → Closed m i) (fuel : ℕ) (found : Bool)
    (con : Console) : Only InField (lsEntries m fuel is found con) := by
  induction is generalizing found con with
  | nil => exact .pure _
  | cons i is ih =>
    refine (lsEntry_inField (h i List.mem_cons_self) fuel found con).bind ?_
    intro r _
    exact ih (fun j hj => h j (List.mem_cons_of_mem _ hj)) r.1 r.2

theorem openEntries_inField {m : Mem} (is : List ℕ) (h : ∀ i ∈ is, Active m i → Closed m i) (fuel : ℕ) (name : Bytes) :
    Only InField (openEntries m fuel name is) := by
  induction is with
  | nil => exact .pure _
  | cons i is ih =>
    have hrest := ih fun j hj => h j (List.mem_cons_of_mem _ hj)
    refine .event_bind (inField_of_le (e := 31) (by decide) (by decide)) ?_
    split
    · exact hrest
    · rename_i ha
      obtain ⟨e,he,hend⟩ := h i List.mem_cons_self (active_of_kept ha)
      refine (strcmp_inField he hend fuel 0 (Nat.zero_le e) name).bind ?_
      intro d _
      split
      · exact .pure _
      · exact hrest

theorem safe_of_closed {m : Mem} (h : ∀ i < fsMaxFiles, Active m i → Closed m i) : SafeListing m := by
  have hrange : ∀ i ∈ List.range fsMaxFiles, Active m i → Closed m i := fun i hi => h i (List.mem_range.mp hi)
  constructor
  · intro dirRead fuel con
    unfold fsLs
    split
    · exact (lsEntries_inField _ hrange fuel _ _).bind fun _ _ => .pure _
    · exact .pure _
  · intro dirRead fuel name _
    unfold fsOpen
    split
    · exact openEntries_inField _ hrange fuel name
    · exact .pure _

/-! ## Disks that the file system wrote -/

theorem strcmpEq_end {m : Mem} {a : ℕ} {s : Bytes} (h : strcmpEq m a s) : m (a+s.length) = 0 := by
  induction s generalizing a with
  | nil => exact h
  | cons c s ih =>
    have := ih h.2
    rwa [List.length_cons,Nat.add_comm s.length 1,← Nat.add_assoc]

theorem closed_of_volume {N : ℕ} {d : Disk Sector} (hv : Volume N d) {m : Mem} (hbuf : ∀ a < 4096, m a = dirOf d a)
    {i : ℕ} (hi : i < fsMaxFiles) (ha : Active m i) : Closed m i := by
  have hi64 : i < 64 := hi
  have hsame : SameEntry (dirOf d) m i := by
    intro x _ hx
    apply hbuf
    unfold entryAddr at hx
    omega
  obtain ⟨name,hname⟩ := hv.named i hi (hsame.active.mp ha)
  have hlen : name.val.length ≤ 31 := name.property.2.1
  refine ⟨name.val.length,by omega,?_⟩
  rw [hsame _ (Nat.le_add_right _ _) (by omega)]
  exact strcmpEq_end hname.2

/-- After any calls from a format on, the directory in the buffer is safe, whatever lies behind the buffer. -/
theorem safe_of_history {N : ℕ} {d : Disk Sector} {files : FileMap} (hN : N ≤ 2^28) (hlba : fsDataLba ≤ N)
    (h : History N d files) {m : Mem} (hbuf : ∀ a < 4096, m a = dirOf d a) : SafeListing m :=
  safe_of_closed fun _ hi ha => closed_of_volume (h.represents hN hlba).1 hbuf hi ha

/-! ## The search of a sound directory -/

section Search
variable {m : Mem} {i e : ℕ}

theorem strcmp_result (hend : m (entryAddr i+e) = 0) (fuel k : ℕ) (hk : k ≤ e) (hfuel : e-k < fuel) (b : Bytes)
    (hb : 0 ∉ b) : ∃ d, (strcmp m i fuel k b).result = some d ∧ (d = 0 ↔ strcmpEq m (entryAddr i+k) b) := by
  induction fuel generalizing k b with
  | zero => omega
  | succ fuel ih =>
    rw [strcmp,loadName,result_event_bind]
    split
    · rename_i hc
      have hne : k ≠ e := fun h => hc.1 (h ▸ hend)
      cases b with
      | nil => exact absurd rfl hc.2.1
      | cons c b =>
        obtain ⟨d,hd,hiff⟩ := ih (k+1) (by omega) (by omega) b fun h => hb (List.mem_cons_of_mem _ h)
        refine ⟨d,hd,hiff.trans ?_⟩
        rw [strcmpEq,Nat.add_assoc]
        exact (and_iff_right hc.2.2).symm
    · rename_i hc
      refine ⟨_,rfl,?_⟩
      -- the difference is zero only where both strings end
      rw [sub_eq_zero,Nat.cast_inj,UInt8.toNat_inj]
      cases b with
      | nil => rfl
      | cons c b =>
        have hc0 : c ≠ 0 := fun h => hb (h ▸ List.mem_cons_self)
        simp only [List.headD_cons] at hc ⊢
        constructor
        · intro heq
          exact absurd ⟨heq ▸ hc0,hc0,heq⟩ hc
        · intro hs
          exact hs.1

theorem openEntries_result (is : List ℕ) (h : ∀ i ∈ is, Active m i → Closed m i) {fuel : ℕ} (hfuel : 32 ≤ fuel)
    (name : Bytes) (hname : 0 ∉ name) : (openEntries m fuel name is).result =
      some ((is.find? (fun i => Matches m name i)).map (fun i => ⟨startLba m i,fileSize m i,0,true⟩)) := by
  induction is with
  | nil => rfl
  | cons i is ih =>
    have hrest := ih fun j hj => h j (List.mem_cons_of_mem _ hj)
    rw [openEntries,loadName,result_event_bind]
    split
    · rename_i hs
      have hno : ¬ Matches m name i := fun hm => skipped_iff.mp hs hm.1
      rw [hrest,List.find?_cons_of_neg (by simpa using hno)]
    · rename_i ha
      have hact : Active m i := active_of_kept ha
      obtain ⟨e,he,hend⟩ := h i List.mem_cons_self hact
      obtain ⟨d,hd,hiff⟩ := strcmp_result hend fuel 0 (Nat.zero_le e) (by omega) name hname
      rw [result_bind hd]
      split
      · rename_i hz
        have hyes : Matches m name i := ⟨hact,hiff.mp hz⟩
        rw [List.find?_cons_of_pos (by simpa only [decide_eq_true_eq] using hyes)]
        rfl
      · rename_i hz
        have hno : ¬ Matches m name i := fun hm => hz (hiff.mpr hm.2)
        rw [hrest,List.find?_cons_of_neg (by simpa using hno)]

/-- With every name closed the search gives what the search of the file system's model gives. -/
theorem fsOpen_result (h : ∀ i < fsMaxFiles, Active m i → Closed m i) {fuel : ℕ} (hfuel : 32 ≤ fuel) (name : Bytes)
    (hname : 0 ∉ name) : (fsOpen true m fuel name).result =
      some ((findEntry m name).map (fun i => ⟨startLba m i,fileSize m i,0,true⟩)) :=
  openEntries_result _ (fun i hi => h i (List.mem_range.mp hi)) hfuel name hname

end Search

/-! ## A name without -/

/-- The loop of `strlen` reads up to the first NUL, wherever it is. -/
theorem strlen_reaches {m : Mem} {i e : ℕ} (hrun : ∀ k < e, m (entryAddr i+k) ≠ 0) (fuel n : ℕ) (hn : n ≤ e)
    (hfuel : e-n < fuel) : (i,entryAddr i+e) ∈ (strlen m i fuel n).log := by
  induction fuel generalizing n with
  | zero => omega
  | succ fuel ih =>
    rw [strlen,loadName,log_event_bind]
    rcases Nat.eq_or_lt_of_le hn with rfl | hlt
    · exact List.mem_cons_self
    · rw [if_neg (hrun n hlt)]
      exact List.mem_cons_of_mem _ (ih (n+1) hlt (by omega))

theorem lsEntry_leaves {m : Mem} {i : ℕ} (ha : Active m i) (h : ¬ Closed m i) (found : Bool) (con : Console) :
    (i,entryAddr i+32) ∈ (lsEntry m 64 i found con).log := by
  have hrun : ∀ k < 32, m (entryAddr i+k) ≠ 0 := fun k hk hz => h ⟨k,hk,hz⟩
  rw [lsEntry,loadName,log_event_bind,if_neg (skipped_iff.not.mpr (not_not.mpr ha))]
  exact List.mem_cons_of_mem _ (mem_log_left (strlen_reaches hrun 64 0 (by decide) (by decide)))

-- the entries before the first bad one come to their end, so the loop gets to it
theorem lsEntries_leaves {m : Mem} (is : List ℕ) (h : ∃ i ∈ is, Active m i ∧ ¬ Closed m i) (found : Bool) (con : Console) :
    ∃ i, (i,entryAddr i+32) ∈ (lsEntries m 64 is found con).log := by
  induction is generalizing found con with
  | nil =>
    obtain ⟨_,hi,_⟩ := h
    cases hi
  | cons j is ih =>
    by_cases hj : Active m j → Closed m j
    · obtain ⟨i,hi,ha,hc⟩ := h
      have hmem : i ∈ is := by
        rcases List.mem_cons.mp hi with rfl | hmem
        · exact absurd (hj ha) hc
        · exact hmem
      obtain ⟨r,hr⟩ := lsEntry_ends hj (show 32 ≤ 64 by decide) found con
      obtain ⟨i',hi'⟩ := ih ⟨i,hmem,ha,hc⟩ r.1 r.2
      exact ⟨i',mem_log_right hr hi'⟩
    · obtain ⟨ha,hc⟩ := Classical.not_imp.mp hj
      exact ⟨j,mem_log_left (lsEntry_leaves ha hc found con)⟩

/-- A directory is safe to list and to search exactly when every name in use has its NUL inside of its field. -/
theorem listing_safe_iff (m : Mem) : SafeListing m ↔ ∀ i < fsMaxFiles, Active m i → Closed m i := by
  constructor
  · intro hs
    by_contra hbad
    simp only [not_forall] at hbad
    obtain ⟨i,hi,ha,hc⟩ := hbad
    obtain ⟨j,hj⟩ := lsEntries_leaves (List.range fsMaxFiles) ⟨i,List.mem_range.mpr hi,ha,hc⟩ false
      { vgaPuts (ascii "-------------------------------- ------\n")
          (vgaPuts (ascii "NAME                             SIZE\n") ⟨fun _ => 0,0,0,0x0B,[],0⟩) with color := 0x07 }
    have hin := hs.lists true 64 ⟨fun _ => 0,0,0,0x07,[],0⟩ (j,entryAddr j+32) (mem_log_left hj)
    exact Nat.lt_irrefl _ hin.2
  · exact safe_of_closed

/-- One entry in use with 32 letters and no NUL. -/
def unclosedDir : Mem := fun a => if a < 32 then 0x61 else 0

/-- Listing it reads the first byte behind the name, part of `start_lba`. -/
theorem unclosed_listing_unsafe :
    (0,32) ∈ (fsLs true unclosedDir 64 ⟨fun _ => 0,0,0,0x07,[],0⟩).log ∧ ¬ SafeListing unclosedDir := by
  have hclosed : ¬ Closed unclosedDir 0 := by
    rintro ⟨k,hk,hz⟩
    have : unclosedDir (entryAddr 0+k) = 0x61 := if_pos (by unfold entryAddr; omega)
    rw [this] at hz
    exact absurd hz (by decide)
  have hmem : (0,32) ∈ (fsLs true unclosedDir 64 ⟨fun _ => 0,0,0,0x07,[],0⟩).log :=
    mem_log_left (mem_log_left (lsEntry_leaves (i := 0) (by decide) hclosed _ _))
  exact ⟨hmem,fun hs => absurd (hs.lists true 64 _ _ hmem).2 (by decide)⟩

end VesperOS.NameFields
