import VesperOS.FileSystem.FaultyTransfers
import VesperOS.FileSystem.MapRefinement

/-! # File descriptors

The global descriptor table of `fd.c`. A descriptor belongs to the PID that opened
it: its position moves with the reads of that PID only, so these deliver the file
from the start, whatever calls come between them.
-/
namespace VesperOS.FileDescriptors
open ByteMemory DiskProgram VesperFs DiskVolume Transfers MapRefinement FaultyTransfers

def fdMax : ℕ := 16

/-- `fd_entry_t`. -/
structure FdEntry where
  file : File
  pid : ℕ
  used : Bool

abbrev FdTable := Fin fdMax → FdEntry

def fdInit : FdTable := fun _ => ⟨⟨0,0,0,false⟩,0,false⟩

/-- The first unused entry. -/
def freeSlot (t : FdTable) : Option (Fin fdMax) := (List.finRange fdMax).find? (fun i => !(t i).used)

/-- The entry that the number of a call selects. -/
def fdIndex (fd : ℤ) : Option (Fin fdMax) :=
  if h : 0 ≤ fd ∧ fd.toNat < fdMax then some ⟨fd.toNat,h.2⟩ else none

def fdOpen (name : Bytes) (pid : ℕ) (t : FdTable) : FsProg (ℤ × FdTable) :=
  match freeSlot t with
  | none => pure (-1,t)
  | some i => do
    match ← fsOpen name with
    | none => pure (-1,t)
    | some f => pure (i.val,Function.update t i ⟨f,pid,true⟩)

/-- `(int)n`. -/
def toInt (n : ℕ) : ℤ := if n < 2^31 then n else n-2^32

/-- The result, the bytes put into the buffer, and the table. -/
def fdRead (fd : ℤ) (len pid : ℕ) (t : FdTable) : FsProg (ℤ × Bytes × FdTable) :=
  match fdIndex fd with
  | none => pure (-1,[],t)
  | some i =>
    if (t i).used = false ∨ (t i).pid ≠ pid then pure (-1,[],t)
    else do
      let (out,f) ← fsRead (t i).file len
      pure (toInt out.length,out,Function.update t i { t i with file := f })

def fdClose (fd : ℤ) (pid : ℕ) (t : FdTable) : FdTable :=
  match fdIndex fd with
  | none => t
  | some i =>
    if (t i).used = false ∨ (t i).pid ≠ pid then t
    else Function.update t i ⟨{ (t i).file with valid := false },0,false⟩

/-! ## What a handle reads -/

/-- The bytes of a file as the drive delivers them. -/
def fileBytes (D : Drive) (d : Disk Sector) (start size : ℕ) : Bytes :=
  (List.range size).map (fun k => sectorMem (d (D.place ((start+k/512) % 2^32))) (k%512))

theorem length_fileBytes (D : Drive) (d : Disk Sector) (start size : ℕ) : (fileBytes D d start size).length = size := by
  simp [fileBytes]

/-- On a disk that holds the file's extent these are the bytes of the extent. -/
theorem fileBytes_eq_extent {d : Disk Sector} {start size : ℕ} (hs : size + 511 < 2^32)
    (hstop : start + sectorsOf size ≤ 2^28) : fileBytes ataDrive d start size = extent d start size := by
  apply List.map_congr_left
  intro k hk
  have hlt := List.mem_range.mp hk
  have hsector : k/512 < sectorsOf size := by
    unfold sectorsOf
    omega
  rw [Nat.mod_eq_of_lt (by omega),show ataDrive.place (start+k/512) = start+k/512 from Nat.mod_eq_of_lt (by omega)]

/-- The address of the sector that holds byte `k` of a file. -/
def byteLba (start k : ℕ) : ℕ := (start+k/512) % 2^32

section Read
variable (D : Drive) (d : Disk Sector) (start : ℕ) {size : ℕ} (hsize : size < 2^32)
include hsize

/-- The loop delivers the next bytes of the file up to the first one whose sector cannot be read. -/
theorem fsReadLoop_next (fuel remaining pos : ℕ) (hfuel : remaining ≤ fuel) (hle : pos + remaining ≤ size) :
    ∃ n ≤ remaining, run D (fsReadLoop fuel remaining ⟨start,size,pos,true⟩) d =
        ((((fileBytes D d start size).drop pos).take n,⟨start,size,pos+n,true⟩),d) ∧
      (∀ k < n, D.accepts (byteLba start (pos+k)) = true) ∧
      (n < remaining → D.accepts (byteLba start (pos+n)) = false) := by
  induction fuel generalizing pos remaining with
  | zero =>
    obtain rfl : remaining = 0 := by omega
    refine ⟨0,le_refl 0,?_,fun k hk => absurd hk (Nat.not_lt_zero k),fun h => absurd h (Nat.lt_irrefl 0)⟩
    rw [fsReadLoop,run_pure,List.take_zero,Nat.add_zero]
  | succ fuel ih =>
    rw [fsReadLoop]
    by_cases hz : remaining = 0
    · subst hz
      refine ⟨0,le_refl 0,?_,fun k hk => absurd hk (Nat.not_lt_zero k),fun h => absurd h (Nat.lt_irrefl 0)⟩
      rw [if_pos rfl,run_pure,List.take_zero,Nat.add_zero]
    · rw [if_neg hz,run_bind,run_readAt]
      dsimp only
      cases hacc : D.accepts ((start+pos/512) % 2^32) with
      | false =>
        refine ⟨0,Nat.zero_le _,?_,fun k hk => absurd hk (Nat.not_lt_zero k),fun _ => hacc⟩
        rw [if_neg (by decide)]
        dsimp only
        rw [run_pure,List.take_zero,Nat.add_zero]
      | true =>
        have hpos : (pos + min (512-pos%512) remaining) % 2^32 = pos + min (512-pos%512) remaining :=
          Nat.mod_eq_of_lt (by omega)
        have hchunk := sectors_chunk (fun j => d (D.place ((start+j) % 2^32))) size pos (min (512-pos%512) remaining)
          (by omega) (by omega)
        obtain ⟨n,hn,hrun,hread,hstop⟩ := ih (remaining-min (512-pos%512) remaining)
          (pos+min (512-pos%512) remaining) (by omega) (by omega)
        refine ⟨min (512-pos%512) remaining+n,by omega,?_,?_,?_⟩
        · rw [if_pos rfl]
          dsimp only
          rw [run_bind,hpos,hrun]
          dsimp only
          rw [run_pure,hchunk,Nat.add_assoc,List.take_add,List.drop_drop]
          rfl
        · intro k hk
          by_cases hin : k < min (512-pos%512) remaining
          · -- the bytes of the chunk lie in the sector just read
            rw [byteLba,show (pos+k)/512 = pos/512 by omega]
            exact hacc
          · have hrest := hread (k-min (512-pos%512) remaining) (by omega)
            rw [show pos+min (512-pos%512) remaining+(k-min (512-pos%512) remaining) = pos+k by omega] at hrest
            exact hrest
        · intro hlt
          have hrest := hstop (by omega)
          rw [Nat.add_assoc] at hrest
          exact hrest

/-- One call of `fs_read` on a valid handle. -/
theorem fsRead_next (pos len : ℕ) (hle : pos ≤ size) :
    ∃ n ≤ min len (size-pos), run D (fsRead ⟨start,size,pos,true⟩ len) d =
        ((((fileBytes D d start size).drop pos).take n,⟨start,size,pos+n,true⟩),d) ∧
      (∀ k < n, D.accepts (byteLba start (pos+k)) = true) ∧
      (n < min len (size-pos) → D.accepts (byteLba start (pos+n)) = false) := by
  unfold fsRead
  by_cases hend : size ≤ pos
  · refine ⟨0,Nat.zero_le _,?_,fun k hk => absurd hk (Nat.not_lt_zero k),fun h => by omega⟩
    rw [if_pos (Or.inr hend),run_pure,List.take_zero,Nat.add_zero]
  · rw [if_neg (by simpa using hend)]
    exact fsReadLoop_next D d start hsize _ _ pos (le_refl _) (by omega)

end Read

/-! ## Calls -/

inductive Call where
  | opens (name : Bytes) (pid : ℕ)
  | read (fd : ℤ) (len pid : ℕ)
  | close (fd : ℤ) (pid : ℕ)
  deriving DecidableEq

/-- The result of a call and the bytes it delivers; `fd_close` has no result. -/
structure Reply where
  result : ℤ
  out : Bytes

def Call.step (d : Disk Sector) : Call → FdTable → Reply × FdTable
  | .opens name pid, t =>
    let r := (run ataDrive (fdOpen name pid t) d).1
    (⟨r.1,[]⟩,r.2)
  | .read fd len pid, t =>
    let r := (run ataDrive (fdRead fd len pid t) d).1
    (⟨r.1,r.2.1⟩,r.2.2)
  | .close fd pid, t => (⟨0,[]⟩,fdClose fd pid t)

section Specs
variable (d : Disk Sector)

theorem run_readDir_ataDrive : run ataDrive readDir d = (some (dirOf d),d) := by
  have hrun := @faultyRun_readDir _ (fun _ => false) lowPlaced_ataDrive 0 d (fun _ _ => rfl)
  obtain ⟨hr,hd⟩ := FaultPattern.faultyRun_noFaults ataDrive readDir 0 d
  rw [hrun] at hr hd
  exact Prod.ext hr.symm hd.symm

theorem run_fsOpen (name : Bytes) : run ataDrive (fsOpen name) d =
    ((findEntry (dirOf d) name).map (fun e => ⟨startLba (dirOf d) e,fileSize (dirOf d) e,0,true⟩),d) := by
  rw [fsOpen,run_bind,run_readDir_ataDrive]
  dsimp only
  cases findEntry (dirOf d) name with
  | none => rfl
  | some e => rfl

theorem run_fdOpen_disk (name : Bytes) (pid : ℕ) (t : FdTable) : (run ataDrive (fdOpen name pid t) d).2 = d := by
  unfold fdOpen
  cases freeSlot t with
  | none => rfl
  | some i =>
    dsimp only
    rw [run_bind,run_fsOpen]
    cases findEntry (dirOf d) name with
    | none => rfl
    | some e => rfl

theorem run_fdRead_disk (fd : ℤ) (len pid : ℕ) (t : FdTable) : (run ataDrive (fdRead fd len pid t) d).2 = d := by
  unfold fdRead
  cases fdIndex fd with
  | none => rfl
  | some i =>
    dsimp only
    split
    · rfl
    · rw [run_bind]
      exact run_fsRead_disk ataDrive (t i).file len d

/-- An open either fails and leaves the table, or fills an unused entry with the start of the file. -/
theorem fdOpen_cases (name : Bytes) (pid : ℕ) (t : FdTable) :
    (run ataDrive (fdOpen name pid t) d).1 = (-1,t) ∨
      ∃ i e, (t i).used = false ∧ findEntry (dirOf d) name = some e ∧ (run ataDrive (fdOpen name pid t) d).1 =
        ((i.val : ℤ),Function.update t i ⟨⟨startLba (dirOf d) e,fileSize (dirOf d) e,0,true⟩,pid,true⟩) := by
  unfold fdOpen
  cases hs : freeSlot t with
  | none => exact Or.inl rfl
  | some i =>
    have hfree := List.find?_some hs
    simp only [Bool.not_eq_true'] at hfree
    dsimp only
    rw [run_bind,run_fsOpen]
    cases hf : findEntry (dirOf d) name with
    | none => exact Or.inl rfl
    | some e => exact Or.inr ⟨i,e,hfree,rfl,rfl⟩

end Specs

/-- No process with this PID holds the descriptor. -/
def Foreign (t : FdTable) (fd : ℤ) (pid : ℕ) : Prop :=
  ∀ i, fdIndex fd = some i → (t i).used = false ∨ (t i).pid ≠ pid

section Foreign
variable {t : FdTable} {fd : ℤ} {pid : ℕ}

theorem fdRead_foreign (h : Foreign t fd pid) (len : ℕ) : fdRead fd len pid t = pure (-1,[],t) := by
  unfold fdRead
  cases hi : fdIndex fd with
  | none => rfl
  | some i => exact if_pos (h i hi)

theorem fdClose_foreign (h : Foreign t fd pid) : fdClose fd pid t = t := by
  unfold fdClose
  cases hi : fdIndex fd with
  | none => rfl
  | some i => exact if_pos (h i hi)

theorem step_read_foreign (d : Disk Sector) (h : Foreign t fd pid) (len : ℕ) :
    Call.step d (.read fd len pid) t = (⟨-1,[]⟩,t) := by
  rw [Call.step,fdRead_foreign h]
  rfl

theorem step_close_foreign (d : Disk Sector) (h : Foreign t fd pid) : Call.step d (.close fd pid) t = (⟨0,[]⟩,t) := by
  rw [Call.step,fdClose_foreign h]

end Foreign

theorem fdIndex_val (i : Fin fdMax) : fdIndex (i.val : ℤ) = some i := by
  unfold fdIndex
  rw [dif_pos ⟨by omega,i.isLt⟩]
  rfl

theorem fdIndex_inj {fd fd' : ℤ} {i : Fin fdMax} (h : fdIndex fd = some i) (h' : fdIndex fd' = some i) : fd = fd' := by
  unfold fdIndex at h h'
  split at h
  · split at h'
    · cases h
      have hval := congrArg Fin.val (Option.some.inj h')
      dsimp only at hval
      omega
    · cases h'
  · cases h

/-! ## One descriptor through a run -/

/-- The descriptor belongs to `pid` and stands at byte `pos` of a file. -/
structure Held (t : FdTable) (fd : ℤ) (i : Fin fdMax) (pid start size pos : ℕ) : Prop where
  index : fdIndex fd = some i
  entry : t i = ⟨⟨start,size,pos,true⟩,pid,true⟩
  small : size < 2^32
  le : pos ≤ size

/-- The length that a call asks of the descriptor, when it is a read by its owner. -/
def Call.asks (fd : ℤ) (pid : ℕ) : Call → Option ℕ
  | .read fd' len pid' => if fd' = fd ∧ pid' = pid then some len else none
  | _ => none

section Held
variable {t : FdTable} {fd : ℤ} {i : Fin fdMax} {pid start size pos : ℕ} (h : Held t fd i pid start size pos)
include h

theorem Held.foreign {pid' : ℕ} (hne : pid' ≠ pid) : Foreign t fd pid' := by
  intro j hj
  rw [h.index] at hj
  cases hj
  right
  rw [h.entry]
  exact fun he => hne he.symm

theorem Held.update_other {j : Fin fdMax} (hj : j ≠ i) (e : FdEntry) :
    Held (Function.update t j e) fd i pid start size pos :=
  ⟨h.index,by rw [Function.update_of_ne (fun he => hj he.symm)]; exact h.entry,h.small,h.le⟩

/-- A call of another number, or of another PID, selects another entry or has no effect. -/
theorem Held.other {fd' : ℤ} {pid' : ℕ} (hne : ¬ (fd' = fd ∧ pid' = pid)) :
    Foreign t fd' pid' ∨ ∃ j, fdIndex fd' = some j ∧ j ≠ i := by
  cases hj : fdIndex fd' with
  | none =>
    left
    intro k hk
    rw [hj] at hk
    cases hk
  | some j =>
    by_cases hji : j = i
    · subst hji
      have hfd := fdIndex_inj hj h.index
      subst hfd
      exact Or.inl (h.foreign (fun he => hne ⟨rfl,he⟩))
    · exact Or.inr ⟨j,rfl,hji⟩

/-- The owner's read delivers the next bytes and moves the position over them. -/
theorem Held.step_read (d : Disk Sector) (len : ℕ) :
    (Call.step d (.read fd len pid) t).1.out =
        ((fileBytes ataDrive d start size).drop pos).take (min len (size-pos)) ∧
      Held (Call.step d (.read fd len pid) t).2 fd i pid start size (pos+min len (size-pos)) := by
  obtain ⟨n,hn,hrun,-,hstop⟩ := fsRead_next ataDrive d start h.small pos len h.le
  obtain rfl : n = min len (size-pos) := by
    by_contra hne
    cases hstop (Nat.lt_of_le_of_ne hn hne)
  have hown : ¬ ((t i).used = false ∨ (t i).pid ≠ pid) := by
    rw [h.entry]
    simp
  have hread : run ataDrive (fdRead fd len pid t) d = ((toInt (((fileBytes ataDrive d start size).drop pos).take
      (min len (size-pos))).length,((fileBytes ataDrive d start size).drop pos).take (min len (size-pos)),
      Function.update t i { t i with file := ⟨start,size,pos+min len (size-pos),true⟩ }),d) := by
    unfold fdRead
    rw [h.index]
    dsimp only
    rw [if_neg hown,run_bind,h.entry,hrun]
    rfl
  have hle := h.le
  rw [Call.step,hread]
  refine ⟨rfl,h.index,?_,h.small,by omega⟩
  dsimp only
  rw [Function.update_self,h.entry]

/-- Any other call leaves the descriptor alone, except the owner's close. -/
theorem Held.step_other (d : Disk Sector) {c : Call} (hclose : c ≠ .close fd pid) (hread : c.asks fd pid = none) :
    Held (c.step d t).2 fd i pid start size pos := by
  cases c with
  | opens name pid' =>
    rcases fdOpen_cases d name pid' t with hfail | ⟨j,e,hfree,-,hok⟩
    · rw [Call.step,hfail]
      exact h
    · have hji : j ≠ i := by
        rintro rfl
        rw [h.entry] at hfree
        cases hfree
      rw [Call.step,hok]
      exact h.update_other hji _
  | read fd' len pid' =>
    have hne : ¬ (fd' = fd ∧ pid' = pid) := by
      intro he
      simp [Call.asks,he] at hread
    rcases h.other hne with hf | ⟨j,hj,hji⟩
    · rw [step_read_foreign d hf]
      exact h
    · rw [Call.step,fdRead,hj]
      dsimp only
      split
      · exact h
      · rw [run_bind]
        exact h.update_other hji _
  | close fd' pid' =>
    have hne : ¬ (fd' = fd ∧ pid' = pid) := by
      rintro ⟨rfl,rfl⟩
      exact hclose rfl
    rcases h.other hne with hf | ⟨j,hj,hji⟩
    · rw [step_close_foreign d hf]
      exact h
    · rw [Call.step,fdClose,hj]
      dsimp only
      split
      · exact h
      · exact h.update_other hji _

end Held

/-! ## Interleavings -/

/-- The table after a list of calls. -/
def after (d : Disk Sector) (t : FdTable) (calls : List Call) : FdTable := calls.foldl (fun t c => (c.step d t).2) t

/-- All bytes that the reads of `pid` on `fd` deliver. -/
def delivered (d : Disk Sector) (fd : ℤ) (pid : ℕ) : FdTable → List Call → Bytes
  | _, [] => []
  | t, c :: calls => (if (c.asks fd pid).isSome then (c.step d t).1.out else [])++delivered d fd pid (c.step d t).2 calls

/-- How many bytes these reads ask for. -/
def requested (fd : ℤ) (pid : ℕ) (calls : List Call) : ℕ := (calls.filterMap (Call.asks fd pid)).sum

theorem asks_some {c : Call} {fd : ℤ} {pid len : ℕ} (h : c.asks fd pid = some len) : c = .read fd len pid := by
  cases c with
  | read fd' len' pid' =>
    simp only [Call.asks] at h
    split at h
    · rename_i he
      cases h
      rw [he.1,he.2]
    · cases h
  | _ => cases h

theorem Held.run {d : Disk Sector} {fd : ℤ} {i : Fin fdMax} {pid start size : ℕ} {calls : List Call}
    (hclose : .close fd pid ∉ calls) {t : FdTable} {pos : ℕ} (h : Held t fd i pid start size pos) :
    delivered d fd pid t calls = ((fileBytes ataDrive d start size).drop pos).take (requested fd pid calls) ∧
      ∃ pos', Held (after d t calls) fd i pid start size pos' := by
  have hlen := length_fileBytes ataDrive d start size
  induction calls generalizing t pos with
  | nil =>
    refine ⟨?_,pos,h⟩
    rw [delivered,requested,List.filterMap_nil,List.sum_nil,List.take_zero]
  | cons c calls ih =>
    have hrest : .close fd pid ∉ calls := fun hm => hclose (List.mem_cons_of_mem _ hm)
    cases ha : c.asks fd pid with
    | none =>
      have hc : c ≠ .close fd pid := by
        rintro rfl
        exact hclose List.mem_cons_self
      obtain ⟨hout,hheld⟩ := ih hrest (h.step_other d hc ha)
      refine ⟨?_,hheld⟩
      rw [delivered,ha,hout,requested,requested,List.filterMap_cons_none ha]
      rfl
    | some len =>
      obtain rfl := asks_some ha
      obtain ⟨hread,hnext⟩ := h.step_read d len
      obtain ⟨hout,hheld⟩ := ih hrest hnext
      refine ⟨?_,hheld⟩
      rw [delivered,ha,hread,hout,requested,requested,List.filterMap_cons_some ha,List.sum_cons,Option.isSome_some,
        if_pos rfl,← List.drop_drop,← List.take_add]
      -- past the end of the file there is nothing to take
      rw [List.take_eq_take_iff,List.length_drop,hlen]
      omega

/-- A PID without a descriptor gets nothing out of it and changes nothing. -/
def Refused (d : Disk Sector) (t : FdTable) (fd : ℤ) (pid : ℕ) : Prop :=
  (∀ len, Call.step d (.read fd len pid) t = (⟨-1,[]⟩,t)) ∧ (Call.step d (.close fd pid) t).2 = t

theorem refused_of_foreign (d : Disk Sector) {t : FdTable} {fd : ℤ} {pid : ℕ} (h : Foreign t fd pid) :
    Refused d t fd pid := by
  refine ⟨step_read_foreign d h,?_⟩
  rw [step_close_foreign d h]

/-- What follows an `fd_open` by `pid` that returned `fd` and left the table `t₁`: up to the `fd_close` of the owner, in
every interleaving, the owner reads the file from the start and the other PIDs are refused. -/
def Isolated (d : Disk Sector) (name : Bytes) (pid : ℕ) (fd : ℤ) (t₁ : FdTable) : Prop :=
  ∃ e, findEntry (dirOf d) name = some e ∧ ∀ calls : List Call, .close fd pid ∉ calls →
    delivered d fd pid t₁ calls =
        (fileBytes ataDrive d (startLba (dirOf d) e) (fileSize (dirOf d) e)).take (requested fd pid calls) ∧
      ∀ pid', pid' ≠ pid → Refused d (after d t₁ calls) fd pid'

theorem descriptor_isolation (d : Disk Sector) (t t₁ : FdTable) (name : Bytes) (pid : ℕ) (fd : ℤ)
    (hopen : (run ataDrive (fdOpen name pid t) d).1 = (fd,t₁)) :
    (∀ fd' pid', Foreign t fd' pid' → Refused d t fd' pid') ∧
      ((fd = -1 ∧ t₁ = t) ∨ (0 ≤ fd ∧ Isolated d name pid fd t₁)) := by
  refine ⟨fun fd' pid' h => refused_of_foreign d h,?_⟩
  rcases fdOpen_cases d name pid t with hfail | ⟨i,e,-,he,hok⟩
  · rw [hfail] at hopen
    cases hopen
    exact Or.inl ⟨rfl,rfl⟩
  · rw [hok] at hopen
    cases hopen
    right
    refine ⟨Int.natCast_nonneg _,e,he,?_⟩
    intro calls hclose
    have hsmall : fileSize (dirOf d) e < 2^32 := read32_lt _ _
    have hheld : Held (Function.update t i ⟨⟨startLba (dirOf d) e,fileSize (dirOf d) e,0,true⟩,pid,true⟩) (i.val : ℤ) i
        pid (startLba (dirOf d) e) (fileSize (dirOf d) e) 0 :=
      ⟨fdIndex_val i,Function.update_self _ _ _,hsmall,Nat.zero_le _⟩
    obtain ⟨hout,pos,hend⟩ := hheld.run (d := d) hclose
    rw [List.drop_zero] at hout
    exact ⟨hout,fun pid' hne => refused_of_foreign d (hend.foreign hne)⟩

/-- A volume with the file `a`. -/
def sampleVolume : Disk Sector :=
  (run (drive 200) (fsWriteNew [0x61] [1,2,3]) (run (drive 200) fsFormat (fun _ _ => 0)).2).2

theorem descriptor_isolation_sample : ∃ t₁, (run ataDrive (fdOpen [0x61] 7 fdInit) sampleVolume).1 = (0,t₁) ∧
    Isolated sampleVolume [0x61] 7 0 t₁ := by
  have hfd : (run ataDrive (fdOpen [0x61] 7 fdInit) sampleVolume).1.1 = 0 := by decide +kernel
  generalize hr : (run ataDrive (fdOpen [0x61] 7 fdInit) sampleVolume).1 = r at hfd
  obtain ⟨fd,t₁⟩ := r
  obtain rfl : fd = 0 := hfd
  refine ⟨t₁,rfl,?_⟩
  rcases (descriptor_isolation sampleVolume fdInit t₁ [0x61] 7 0 hr).2 with ⟨hno,-⟩ | ⟨-,hok⟩
  · cases hno
  · exact hok

end VesperOS.FileDescriptors
