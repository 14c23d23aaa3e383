import VesperOS.Syscall.SyscallHandler
import Mathlib.Data.List.GetD

/-! # Buffers of the caller

No system call looks at the pointer it is given. The addresses it accesses for its
caller follow from its arguments and the tables of the kernel, one after the other from
the pointer on.
-/
namespace VesperOS.CallerBuffers
open ByteMemory Paging DiskProgram VesperFs FileDescriptors Pipes AccessProgram DescriptorOwners SyscallHandler

/-! ## The addresses of a call -/

/-- The byte that the kernel sees at an address. -/
def viewed (tr : Translate) (m : Mem) (v : ℕ) : UInt8 := ((tr m v).map m).getD 0

/-- How many bytes of each string `strcmp` reads, and whether it finds them equal. -/
def strcmpReads (a b : ℕ → UInt8) : ℕ → ℕ → ℕ × Bool
  | 0, _ => (0,false)
  | fuel+1, j =>
    if a j ≠ 0 ∧ b j ≠ 0 ∧ a j = b j then ((strcmpReads a b fuel (j+1)).1+1,(strcmpReads a b fuel (j+1)).2)
    else (1,a j == b j)

/-- The addresses at which `fs_open` reads a name that holds the bytes `b`. -/
def nameReads (dir : Mem) (name : ℕ) (b : ℕ → UInt8) : List ℕ → List ℕ
  | [] => []
  | i :: rest =>
    if Active dir i then
      span name (strcmpReads (fun j => dir (entryAddr i+j)) b (dirBytes+1) 0).1++
        if (strcmpReads (fun j => dir (entryAddr i+j)) b (dirBytes+1) 0).2 then [] else nameReads dir name b rest
    else nameReads dir name b rest

/-- The byte `j` of a string of the caller. -/
def callerByte (s : SysState) (name j : ℕ) : UInt8 :=
  viewed (translate s.kernel.cr3) s.kernel.mach.mem ((name+j) % 2^32)

def touched (env : Env) (s : SysState) : SysCall → List ℕ
  | .write buf len => span buf len
  | .opens name =>
    if freeSlot s.fds = none then []
    else ((env.exec readDir).map fun dir => nameReads dir name (callerByte s name) (List.range fsMaxFiles)).getD []
  | .read fd len buf => span buf (env.exec (fdRead fd len (callerPid s.kernel) s.fds)).2.1.length
  | .pipeWrite id len buf =>
    ((openIndex s.pipes id).map fun i => span buf (min len (bufSize-(s.pipes i).count))).getD []
  | .pipeRead id len buf => ((openIndex s.pipes id).map fun i => span buf (min len (s.pipes i).count)).getD []
  | .resume i len buf => span buf (min len (s.pipes i).count)
  | _ => []

section Loops
variable {tr : Translate} {m : Mem}

theorem follows_loadBytes (buf n i : ℕ) : Follows tr (loadBytes buf n i) m (span (buf+i) n) := by
  induction n generalizing i with
  | zero => exact Follows.ret _
  | succ n ih =>
    rw [span_succ]
    exact Follows.load fun x _ => (ih (i+1)).map _

theorem follows_storeBytes (buf : ℕ) (bs : Bytes) (i : ℕ) :
    Follows tr (storeBytes buf bs i) m (span (buf+i) bs.length) := by
  induction bs generalizing i m with
  | nil => exact Follows.ret _
  | cons b rest ih =>
    rw [List.length_cons,span_succ]
    exact Follows.store fun x _ => ih (i+1)

theorem follows_pipeWriteLoop (buf n written : ℕ) (p : Pipe) :
    Follows tr (pipeWriteLoop buf n written p) m (span (buf+written) (min n (bufSize-p.count))) := by
  induction n generalizing written p with
  | zero =>
    rw [Nat.zero_min]
    exact Follows.ret _
  | succ n ih =>
    unfold pipeWriteLoop
    by_cases hroom : p.count < bufSize
    · have hmin : min (n+1) (bufSize-p.count) = min n (bufSize-(p.count+1))+1 := by omega
      rw [if_pos hroom,hmin,span_succ]
      exact Follows.load fun x _ => ih (written+1) { p with ring := p.push bufSize (m x) }
    · rw [if_neg hroom,Nat.sub_eq_zero_of_le (Nat.le_of_not_lt hroom),Nat.min_zero]
      exact Follows.ret _

theorem follows_pipeReadLoop (buf n i : ℕ) (p : Pipe) : Follows tr (pipeReadLoop buf n i p) m (span (buf+i) n) := by
  induction n generalizing i p m with
  | zero => exact Follows.ret _
  | succ n ih =>
    rw [span_succ]
    exact Follows.store fun x _ => ih (i+1) _

/-- `strcmp` reads the string as the kernel sees it, and leaves memory alone. -/
theorem strcmpAt_spec (a : ℕ → UInt8) (name fuel j : ℕ) :
    Follows tr (strcmpAt a name fuel j) m
        (span (name+j) (strcmpReads a (fun k => viewed tr m ((name+k) % 2^32)) fuel j).1) ∧
      (run tr (strcmpAt a name fuel j) m).mem = m ∧ ∀ r, (run tr (strcmpAt a name fuel j) m).result = some r →
        r = (strcmpReads a (fun k => viewed tr m ((name+k) % 2^32)) fuel j).2 := by
  induction fuel generalizing j with
  | zero => exact ⟨Follows.ret _,rfl,fun r hr => (Option.some.inj hr).symm⟩
  | succ fuel ih =>
    have hview : ∀ x, tr m ((name+j) % 2^32) = some x → viewed tr m ((name+j) % 2^32) = m x := by
      intro x hx
      rw [viewed,hx]
      rfl
    unfold strcmpAt strcmpReads
    by_cases hcond : a j ≠ 0 ∧ viewed tr m ((name+j) % 2^32) ≠ 0 ∧ a j = viewed tr m ((name+j) % 2^32)
    · obtain ⟨hf,hm,hr⟩ := ih (j+1)
      rw [if_pos hcond,span_succ]
      refine ⟨Follows.load fun x hx => ?_,?_⟩
      · rw [hview x hx] at hcond
        rw [if_pos hcond]
        exact hf
      · cases hx : tr m ((name+j) % 2^32) with
        | none =>
          rw [run_load_none hx]
          exact ⟨rfl,fun r hr => by cases hr⟩
        | some x =>
          rw [hview x hx] at hcond
          rw [run_load_some hx,if_pos hcond]
          exact ⟨hm,hr⟩
    · rw [if_neg hcond,show span (name+j) 1 = [(name+j) % 2^32] from rfl]
      refine ⟨Follows.load fun x hx => ?_,?_⟩
      · rw [hview x hx] at hcond
        rw [if_neg hcond]
        exact Follows.ret _
      · cases hx : tr m ((name+j) % 2^32) with
        | none =>
          rw [run_load_none hx]
          exact ⟨rfl,fun r hr => by cases hr⟩
        | some x =>
          rw [run_load_some hx,hview x hx]
          rw [hview x hx] at hcond
          rw [if_neg hcond]
          exact ⟨rfl,fun r hr => (Option.some.inj hr).symm⟩

/-- The entry loop reads the name for every active entry up to the one that matches. -/
theorem follows_findEntryAt (dir : Mem) (name : ℕ) (entries : List ℕ) :
    Follows tr (findEntryAt dir name entries) m
      (nameReads dir name (fun k => viewed tr m ((name+k) % 2^32)) entries) := by
  induction entries with
  | nil => exact Follows.ret _
  | cons i rest ih =>
    unfold findEntryAt nameReads
    by_cases ha : Active dir i
    · obtain ⟨hf,hm,hr⟩ := @strcmpAt_spec tr m (fun j => dir (entryAddr i+j)) name (dirBytes+1) 0
      rw [if_pos ha,if_pos ha]
      refine hf.bind fun r hres => ?_
      rw [hm,← hr r hres]
      cases r with
      | true => exact Follows.ret _
      | false => exact ih
    · rw [if_neg ha,if_neg ha]
      exact ih

end Loops

/-! ## The results

A call that is not stopped computes what the functions on strings and lists of bytes
compute from the bytes at the caller's addresses.
-/

theorem pipeReadLoop_eq (buf n i : ℕ) (p : Pipe) :
    pipeReadLoop buf n i p = (storeBytes buf (readLoop p n).1 i >>= fun _ => pure (readLoop p n).2) := by
  induction n generalizing i p with
  | zero => rfl
  | succ n ih =>
    unfold pipeReadLoop readLoop
    dsimp only
    rw [ih]
    rfl

theorem pipeWriteLoop_result {tr : Translate} {m : Mem} (buf n written : ℕ) (p : Pipe) {r : ℕ × Pipe}
    (h : (run tr (pipeWriteLoop buf n written p) m).result = some r) :
    r = (written+(writeLoop p ((span (buf+written) n).map (viewed tr m))).1,
      (writeLoop p ((span (buf+written) n).map (viewed tr m))).2) := by
  induction n generalizing written p with
  | zero => exact (Option.some.inj h).symm
  | succ n ih =>
    rw [span_succ,List.map_cons]
    unfold pipeWriteLoop at h
    unfold writeLoop
    by_cases hroom : p.count < bufSize
    · rw [if_pos hroom] at h ⊢
      cases hx : tr m ((buf+written) % 2^32) with
      | none =>
        rw [run_load_none hx] at h
        cases h
      | some x =>
        have hview : viewed tr m ((buf+written) % 2^32) = m x := by
          rw [viewed,hx]
          rfl
        rw [run_load_some hx] at h
        have hrest := ih (written+1) { p with ring := p.push bufSize (m x) } h
        rw [hrest,hview]
        dsimp only
        rw [Nat.add_assoc written 1,Nat.add_comm 1]
    · rw [if_neg hroom] at h ⊢
      exact (Option.some.inj h).symm

/-- With enough fuel the comparison is `strcmp`: the string `a` ends within it. -/
theorem strcmpReads_eq {dir : Mem} {b : ℕ → UInt8} {name : Bytes} (hname : ∀ c ∈ name, c ≠ 0) {addr fuel j : ℕ}
    (hb : ∀ k < name.length, b (j+k) = name.getD k 0) (hend : b (j+name.length) = 0)
    (hfuel : ∃ k < fuel, dir (addr+(j+k)) = 0) :
    (strcmpReads (fun i => dir (addr+i)) b fuel j).2 = decide (strcmpEq dir (addr+j) name) := by
  induction fuel generalizing j name with
  | zero =>
    obtain ⟨k,hk,_⟩ := hfuel
    cases hk
  | succ fuel ih =>
    unfold strcmpReads
    cases name with
    | nil =>
      have hzero : b j = 0 := hend
      rw [if_neg (by simp [hzero]),hzero]
      exact decide_eq_decide.mpr Iff.rfl
    | cons c cs =>
      have hbj : b j = c := by
        have := hb 0 (by simp)
        simpa using this
      have hc : c ≠ 0 := hname c List.mem_cons_self
      by_cases ha : dir (addr+j) = c
      · have hnext : ∃ k < fuel, dir (addr+(j+1+k)) = 0 := by
          obtain ⟨k,hk,hz⟩ := hfuel
          cases k with
          | zero => exact absurd (ha.symm.trans hz) hc
          | succ k => exact ⟨k,by omega,by rw [Nat.add_assoc j,Nat.add_comm 1]; exact hz⟩
        have hrest : (strcmpReads (fun i => dir (addr+i)) b fuel (j+1)).2 = decide (strcmpEq dir (addr+(j+1)) cs) :=
          ih (fun x hx => hname x (List.mem_cons_of_mem c hx))
          (fun k hk => by
            have := hb (k+1) (by simpa using hk)
            rw [Nat.add_assoc j,Nat.add_comm 1]
            simpa using this)
          (by
            rw [Nat.add_assoc j,Nat.add_comm 1]
            exact hend) hnext
        have hsame : dir (addr+j) ≠ 0 ∧ b j ≠ 0 ∧ dir (addr+j) = b j := by
          rw [ha,hbj]
          exact ⟨hc,hc,rfl⟩
        rw [if_pos hsame]
        dsimp only
        rw [hrest]
        simp only [strcmpEq,ha,true_and,Nat.add_assoc]
      · rw [if_neg (by simp only [hbj]; exact fun h => ha h.2.2),hbj]
        dsimp only
        simp [strcmpEq,ha]

/-- The entry loop of `fs_open` finds the entry that it finds for the caller's string. -/
theorem findEntryAt_result {tr : Translate} {m : Mem} {dir : Mem} (hdir : ∀ a, dirBytes ≤ a → dir a = 0) {ptr : ℕ}
    {name : Bytes} (hname : ∀ c ∈ name, c ≠ 0)
    (hb : ∀ k < name.length, viewed tr m ((ptr+k) % 2^32) = name.getD k 0)
    (hend : viewed tr m ((ptr+name.length) % 2^32) = 0) (entries : List ℕ) {r : Option ℕ}
    (h : (run tr (findEntryAt dir ptr entries) m).result = some r) :
    r = entries.find? (fun i => Matches dir name i) := by
  induction entries with
  | nil => exact (Option.some.inj h).symm
  | cons i rest ih =>
    unfold findEntryAt at h
    by_cases ha : Active dir i
    · obtain ⟨-,hm,hr⟩ := @strcmpAt_spec tr m (fun j => dir (entryAddr i+j)) ptr (dirBytes+1) 0
      have heq := @strcmpReads_eq dir (fun k => viewed tr m ((ptr+k) % 2^32)) _ hname (entryAddr i)
        (dirBytes+1) 0 (by simpa using hb) (by simpa using hend)
        ⟨dirBytes,Nat.lt_succ_self _,hdir _ (by omega)⟩
      rw [if_pos ha] at h
      rcases @run_bind _ _ tr m (strcmpAt (fun j => dir (entryAddr i+j)) ptr (dirBytes+1) 0)
        (fun r => if r = true then pure (some i) else findEntryAt dir ptr rest) with ⟨_,he⟩ | ⟨b,hb',he⟩
      · rw [he] at h
        cases h
      · rw [he,hm] at h
        have hbr := (hr b hb').trans heq
        rw [Nat.add_zero] at hbr
        rw [List.find?_cons]
        by_cases hmatch : strcmpEq dir (entryAddr i) name
        · rw [hbr,decide_eq_true hmatch] at h
          rw [decide_eq_true (show Matches dir name i from ⟨ha,hmatch⟩)]
          exact (Option.some.inj h).symm
        · rw [hbr,decide_eq_false hmatch] at h
          rw [decide_eq_false (show ¬ Matches dir name i from fun hm => hmatch hm.2)]
          exact ih h
    · rw [if_neg ha] at h
      rw [List.find?_cons,decide_eq_false (show ¬ Matches dir name i from fun hm => ha hm.1)]
      exact ih h

/-- The directory buffer ends after its sectors. -/
theorem readDir_zero (med : Medium) {dir : Mem} (h : med.exec readDir = some dir) {a : ℕ} (ha : dirBytes ≤ a) :
    dir a = 0 := by
  unfold Medium.exec at h
  by_cases hpass : FaultyTransfers.AllPass med.drive med.fails 0 fsDirLba fsDirSectors
  · rw [readDir,FaultPattern.faultyRun_bind,FaultyTransfers.faultyRun_ataReadSectors _ hpass] at h
    obtain rfl := Option.some.inj h
    have hlen : fsDirSectors ≤ a/512 := by
      unfold dirBytes at ha
      omega
    unfold dirBuf
    rw [List.getD_eq_default _ _ (by simpa using hlen)]
    simp [sectorMem]
  · rw [(FaultyTransfers.faultyRun_readDir_fail _ hpass).1] at h
    cases h

/-- `SYS_OPEN` opens the file whose name is the string at EBX. -/
theorem fdOpenAt_result {tr : Translate} {m : Mem} (env : Env) {ptr : ℕ} {name : Bytes} (hname : ∀ c ∈ name, c ≠ 0)
    (hb : ∀ k < name.length, viewed tr m ((ptr+k) % 2^32) = name.getD k 0)
    (hend : viewed tr m ((ptr+name.length) % 2^32) = 0) (pid : ℕ) (t : FdTable) {r : ℤ × FdTable}
    (h : (run tr (fdOpenAt env ptr pid t) m).result = some r) : r = env.exec (fdOpen name pid t) := by
  unfold fdOpenAt at h
  unfold fdOpen
  cases hfree : freeSlot t with
  | none =>
    rw [hfree] at h
    exact (Option.some.inj h).symm
  | some i =>
    rw [hfree] at h
    dsimp only at h ⊢
    generalize ho : FaultPattern.faultyRun env.drive env.fails readDir 0 env.disk = o
    have hexec : env.exec readDir = o.result := congrArg FaultPattern.Outcome.result ho
    rw [hexec] at h
    unfold Medium.exec fsOpen
    rw [FaultPattern.faultyRun_bind,FaultPattern.faultyRun_bind,ho]
    cases hdir : o.result with
    | none =>
      rw [hdir] at h
      exact (Option.some.inj h).symm
    | some dir =>
      have hzero : ∀ a, dirBytes ≤ a → dir a = 0 := fun a ha => readDir_zero env.toMedium (hexec.trans hdir) ha
      rw [hdir] at h
      dsimp only at h ⊢
      rcases @run_bind _ _ tr m (findEntryAt dir ptr (List.range fsMaxFiles)) _ with ⟨_,he⟩ | ⟨e,hres,he⟩
      · rw [he] at h
        cases h
      · rw [he] at h
        have hfound : e = findEntry dir name := findEntryAt_result hzero hname hb hend _ hres
        rw [← hfound]
        cases e with
        | none => exact (Option.some.inj h).symm
        | some e => exact (Option.some.inj h).symm

/-- The whole handler. -/
theorem follows_handle (K : KernelLayout) (env : Env) (s : SysState) (c : SysCall) :
    Follows (translate s.kernel.cr3) (handle K env s c) s.kernel.mach.mem (touched env s c) := by
  have hresume : ∀ i len buf, Follows (translate s.kernel.cr3) (resumeRead K s i len buf) s.kernel.mach.mem
      (span buf (min len (s.pipes i).count)) := by
    intro i len buf
    unfold resumeRead
    dsimp only
    by_cases hempty : (s.pipes i).count = 0
    · rw [if_pos hempty,hempty,Nat.min_zero]
      split
      · exact Follows.ret _
      · split
        · exact Follows.ret _
        · exact Follows.ret _
    · have hmin : (if len < (s.pipes i).count then len else (s.pipes i).count) = min len (s.pipes i).count := by
        split <;> omega
      rw [if_neg hempty,hmin]
      exact (follows_pipeReadLoop buf _ 0 (s.pipes i)).map _
  cases c with
  | write buf len => exact (follows_loadBytes buf len 0).map _
  | opens name =>
    rw [handle,touched]
    refine Follows.map _ ?_
    unfold fdOpenAt
    cases hfree : freeSlot s.fds with
    | none => exact Follows.ret _
    | some i =>
      rw [if_neg (by simp)]
      cases env.exec readDir with
      | none => exact Follows.ret _
      | some dir =>
        dsimp only [Option.map_some,Option.getD_some]
        rw [← List.append_nil (nameReads _ _ _ _)]
        refine (follows_findEntryAt dir name _).bind fun e _ => ?_
        cases e with
        | none => exact Follows.ret _
        | some e => exact Follows.ret _
  | read fd len buf =>
    exact (follows_storeBytes buf _ 0).map _
  | pipeWrite id len buf =>
    rw [handle,touched]
    cases openIndex s.pipes id with
    | none => exact Follows.ret _
    | some i => exact (follows_pipeWriteLoop buf len 0 (s.pipes i)).map _
  | pipeRead id len buf =>
    rw [handle,touched]
    cases openIndex s.pipes id with
    | none => exact Follows.ret _
    | some i => exact hresume i len buf
  | resume i len buf => exact hresume i len buf
  | pipeCreate =>
    rw [handle]
    split
    · exact Follows.ret _
    · exact Follows.ret _
  | _ => exact Follows.ret _

/-! ## Calls that only read -/

/-- The calls that fill a buffer of the caller. -/
def fills : SysCall → Bool
  | .read _ _ _ | .pipeRead _ _ _ | .resume _ _ _ => true
  | _ => false

theorem loadsOnly_loadBytes (buf n i : ℕ) : LoadsOnly (loadBytes buf n i) := by
  induction n generalizing i with
  | zero => trivial
  | succ n ih => exact fun b => (ih (i+1)).bind fun _ => trivial

theorem loadsOnly_strcmpAt (a : ℕ → UInt8) (name fuel j : ℕ) : LoadsOnly (strcmpAt a name fuel j) := by
  induction fuel generalizing j with
  | zero => trivial
  | succ fuel ih =>
    intro b
    dsimp only
    split
    · exact ih (j+1)
    · trivial

theorem loadsOnly_findEntryAt (dir : Mem) (name : ℕ) (entries : List ℕ) : LoadsOnly (findEntryAt dir name entries) := by
  induction entries with
  | nil => trivial
  | cons i rest ih =>
    unfold findEntryAt
    split
    · refine (loadsOnly_strcmpAt _ name _ 0).bind fun r => ?_
      split
      · trivial
      · exact ih
    · exact ih

theorem loadsOnly_pipeWriteLoop (buf n written : ℕ) (p : Pipe) : LoadsOnly (pipeWriteLoop buf n written p) := by
  induction n generalizing written p with
  | zero => trivial
  | succ n ih =>
    unfold pipeWriteLoop
    split
    · exact fun b => ih (written+1) _
    · trivial

theorem loadsOnly_handle (K : KernelLayout) (env : Env) (s : SysState) {c : SysCall} (hc : fills c = false) :
    LoadsOnly (handle K env s c) := by
  cases c with
  | read => cases hc
  | pipeRead => cases hc
  | resume => cases hc
  | write buf len => exact (loadsOnly_loadBytes buf len 0).bind fun _ => trivial
  | opens name =>
    rw [handle]
    refine LoadsOnly.bind ?_ fun _ => trivial
    unfold fdOpenAt
    split
    · trivial
    · split
      · trivial
      · refine (loadsOnly_findEntryAt _ name _).bind fun e => ?_
        split <;> trivial
  | pipeWrite id len buf =>
    rw [handle]
    split
    · trivial
    · exact (loadsOnly_pipeWriteLoop buf len 0 _).bind fun _ => trivial
  | pipeCreate =>
    rw [handle]
    split <;> trivial
  | _ => trivial

/-! ## Names -/

/-- A comparison reads bytes of the string and its terminator, and nothing behind it. -/
theorem strcmpReads_bound (a b : ℕ → UInt8) (fuel j : ℕ) : ∀ k < (strcmpReads a b fuel j).1, ∀ i < k, b (j+i) ≠ 0 := by
  induction fuel generalizing j with
  | zero =>
    intro k hk
    cases hk
  | succ fuel ih =>
    unfold strcmpReads
    by_cases hcond : a j ≠ 0 ∧ b j ≠ 0 ∧ a j = b j
    · rw [if_pos hcond]
      intro k hk i hi
      cases i with
      | zero => exact hcond.2.1
      | succ i =>
        have hrest := ih (j+1) (k-1) (by dsimp only at hk; omega) i (by omega)
        rw [Nat.add_right_comm,Nat.add_assoc] at hrest
        exact hrest
    · rw [if_neg hcond]
      intro k hk i hi
      dsimp only at hk
      omega

theorem nameReads_bound (dir : Mem) (name : ℕ) (b : ℕ → UInt8) (entries : List ℕ) :
    ∀ v ∈ nameReads dir name b entries, ∃ k, v = (name+k) % 2^32 ∧ ∀ i < k, b i ≠ 0 := by
  induction entries with
  | nil =>
    intro v hv
    cases hv
  | cons e rest ih =>
    unfold nameReads
    split
    · intro v hv
      rcases List.mem_append.mp hv with hv | hv
      · obtain ⟨k,hk,rfl⟩ := mem_span.mp hv
        refine ⟨k,rfl,fun i hi => ?_⟩
        have hb := strcmpReads_bound _ _ _ _ k hk i hi
        rw [Nat.zero_add] at hb
        exact hb
      · split at hv
        · cases hv
        · exact ih v hv
    · exact ih

/-- A name is read up to its terminator at most. -/
theorem touched_opens (env : Env) (s : SysState) (name : ℕ) :
    ∀ v ∈ touched env s (.opens name), ∃ k, v = (name+k) % 2^32 ∧ ∀ i < k, callerByte s name i ≠ 0 := by
  rw [touched]
  split
  · intro v hv
    cases hv
  · cases env.exec readDir with
    | none =>
      intro v hv
      cases hv
    | some dir => exact nameReads_bound dir name _ _

end VesperOS.CallerBuffers
