import VesperOS.Process.ContextSwitch
import VesperOS.Process.LoadedSpace
import VesperOS.Process.TableInvariant
import VesperOS.Process.ResumedContexts

/-! # The process table in memory

The functions of `process.c` on the bytes of the process table, with the switch of `process.asm`, do what the
functions on the abstract table do. Of a stack pointer only its stack is compared; how deep it stands changes with
the code between two calls.
-/
namespace VesperOS.SwitchRefinement
open Paging ByteMemory StackMachine ProcessTable Scheduler SwitchCode ResumedContexts

/-! ## The functions on memory -/

/-- `process_create` and `process_create_user`. -/
def create (L : Layout) (p : NewProcess) (m : Mem) : Mem :=
  match allocSlot L m with
  | none => m
  | some i => createProc L p i m

/-- The writes of `process_exit` and `process_kill`; what `paging_destroy_pd` does is not in the table. -/
def terminateAt (m : Mem) (p : ℕ) : Mem :=
  let m := if word m (p+4) ≠ 0 then setWord m (p+4) 0 else m
  setWord m (p+8) (code .zombie)

def exitCurrent (L : Layout) (m : Mem) : Mem :=
  let current := word m L.current
  if current ≠ 0 then terminateAt m current.toNat else m

def kill (L : Layout) (pid : UInt32) (m : Mem) : Mem :=
  match (List.finRange 16).find? fun i => L.pid m i = pid ∧ L.state m i ≠ code .unused ∧ L.state m i ≠ code .zombie with
  | none => m
  | some i => terminateAt m (L.slot i)

def blockCurrent (L : Layout) (m : Mem) : Mem :=
  let current := word m L.current
  if current ≠ 0 then setWord m (current.toNat+8) (code .blocked) else m

def wakeSlot (L : Layout) (m : Mem) (i : Slot) : Mem :=
  if L.state m i = code .blocked then L.setState m i (code .ready) else m

def wake (L : Layout) (p : Option Slot) (m : Mem) : Mem :=
  match p with
  | none => m
  | some i => wakeSlot L m i

def wakeAllBlocked (L : Layout) (m : Mem) : Mem := (List.finRange 16).foldl (wakeSlot L) m

/-! ## Executions -/

/-- One call of the scheduler's interface. -/
inductive Does (L : Layout) : KernelCall → Core → Core → Prop
  | create {p : NewProcess} {s : Core} : p.pdPhys = 0 → Does L .create s { s with mem := create L p s.mem }
  | createUser {p : NewProcess} {s : Core} {userEip userEsp pdPhys : ℕ} : pdPhys < 2^32 → p.pdPhys = UInt32.ofNat pdPhys →
      Does L (.createUser userEip userEsp pdPhys) s { s with mem := create L p s.mem }
  | kill {s : Core} {pid : ℕ} : pid < 2^32 → Does L (.kill pid) s { s with mem := kill L (UInt32.ofNat pid) s.mem }
  | wake {s : Core} {p : Option Slot} : Does L (.wake p) s { s with mem := wake L p s.mem }
  | wakeAllBlocked {s : Core} : Does L .wakeAllBlocked s { s with mem := wakeAllBlocked L s.mem }
  | yield {o : Option Slot} {s s' : Core} : word s.mem L.current = L.pointer o → L.limit o+28 ≤ s.esp.toNat →
      Yield L (L.limit o) s s' → Does L .yield s s'
  | block {o : Option Slot} {s s' : Core} : word s.mem L.current = L.pointer o → L.limit o+28 ≤ s.esp.toNat →
      Yield L (L.limit o) { s with mem := blockCurrent L s.mem } s' → Does L .block s s'
  | exit {o : Option Slot} {s s' : Core} : word s.mem L.current = L.pointer o → L.limit o+28 ≤ s.esp.toNat →
      Yield L (L.limit o) { s with mem := exitCurrent L s.mem } s' → Does L .exit s s'

/-- Code that is not of `process.c`. -/
structure Elsewhere (L : Layout) (o : Option Slot) (s s' : Core) : Prop extends Runs L o s s' where
  table : ∀ i a, L.slot i+4 ≤ a → a < L.slot i+16 → s'.mem a = s.mem a
  nextPid : word s'.mem L.nextPid = word s.mem L.nextPid
  cr3 : s'.cr3 = s.cr3
  esp0 : s'.esp0 = s.esp0

inductive Execution (L : Layout) : List KernelCall → Core → Core → Prop
  | refl (s : Core) : Execution L [] s s
  | elsewhere {calls : List KernelCall} {o : Option Slot} {s s₁ s₂ : Core} : Execution L calls s s₁ →
      word s₁.mem L.current = L.pointer o → Elsewhere L o s₁ s₂ → Execution L calls s s₂
  | call {calls : List KernelCall} {call : KernelCall} {s s₁ s₂ : Core} : Execution L calls s s₁ → Does L call s₁ s₂ →
      Execution L (calls++[call]) s s₂

/-- The bytes of the table hold the abstract table. -/
structure Refines (L : Layout) (k : Kernel) (s : Core) : Prop where
  inv : Inv L k.current s
  owned : ContextSwitch.StacksOwned k
  states : ∀ i, L.state s.mem i = code (k.table i).state
  pds : ∀ i, (L.pdPhys s.mem i).toNat = (k.table i).pdPhys
  pids : ∀ i, (L.pid s.mem i).toNat = (k.table i).pid
  nextPid : (word s.mem L.nextPid).toNat = k.nextPid
  cr3 : s.cr3.toNat = k.cr3
  esp0 : ∀ i, k.esp0 = some i → s.esp0.toNat = L.top (some i)

/-! ## The scheduler -/

theorem code_inj {a b : ProcState} : code a = code b ↔ a = b := by
  constructor
  · intro h
    cases a <;> cases b <;> first | rfl | exact absurd h (by decide)
  · exact congrArg code

theorem code_ne_zero {a : ProcState} : code a ≠ 0 ↔ a ≠ .unused := not_congr (code_inj (b := .unused))

theorem schedNext_refines {L : Layout} {m : Mem} {k : Kernel} (hcur : word m L.current = L.pointer k.current)
    (hs : ∀ i, L.state m i = code (k.table i).state) :
    (SwitchCode.schedNext L m).1 = (ProcessTable.schedNext k).1 ∧
      ∀ i, L.state (SwitchCode.schedNext L m).2 i = code ((ProcessTable.schedNext k).2.table i).state := by
  have hset {m : Mem} {k : Kernel} (h : ∀ i, L.state m i = code (k.table i).state) (i : Slot) (st : ProcState) (j : Slot) :
      L.state (L.setState m i (code st)) j = code ((k.setState i st).table j).state := by
    rw [state_setState,setState_table,h]
    split <;> rfl
  unfold SwitchCode.schedNext ProcessTable.schedNext
  rw [hcur]
  cases hc : k.current with
  | none =>
    have hfind : (fun i => decide (L.state m i = code .ready ∨ L.state m i = code .running)) =
        fun i => decide ((k.table i).state = .ready ∨ (k.table i).state = .running) := by
      funext i
      exact decide_eq_decide.mpr (by rw [hs,code_inj,code_inj])
    rw [if_pos (by rfl),hfind]
    unfold firstSlot
    generalize List.find? _ (List.finRange 16) = found
    cases found with
    | none => exact ⟨rfl,hset hs _ _⟩
    | some j => exact ⟨rfl,hset hs _ _⟩
  | some c =>
    rw [if_neg (L.pointer_ne_zero c),L.index_pointer,L.pointer_toNat]
    dsimp only
    have hback (i : Slot) :
        L.state (if word m (L.slot c+8) = code .running then setWord m (L.slot c+8) (code .ready) else m) i =
          code ((if (k.table c).state = .running then k.setState c .ready else k).table i).state := by
      have hrun : word m (L.slot c+8) = code .running ↔ (k.table c).state = .running := by
        rw [← code_inj,← hs c]
        rfl
      by_cases hr : (k.table c).state = .running
      · rw [if_pos (hrun.mpr hr),if_pos hr]
        exact hset hs c .ready i
      · rw [if_neg (mt hrun.mp hr),if_neg hr]
        exact hs i
    generalize (if word m (L.slot c+8) = code .running then setWord m (L.slot c+8) (code .ready) else m) = m₁ at hback ⊢
    generalize (if (k.table c).state = .running then k.setState c .ready else k) = k₁ at hback ⊢
    have hfind : (fun i => decide (L.state m₁ i = code .ready)) = fun i => decide ((k₁.table i).state = .ready) := by
      funext i
      exact decide_eq_decide.mpr (by rw [hback,code_inj])
    rw [hfind]
    unfold firstSlot
    split
    all_goals
      rename_i hi
      rw [hi]
      exact ⟨rfl,hset hback _ _⟩

theorem switch_refines {K : KernelLayout} {L : Layout} (hK : L.kernelPd.toNat = K.pageDirectory) {k : Kernel} {s s' : Core}
    (h : Refines L k s) (hroom : L.limit k.current+28 ≤ s.esp.toNat) (hy : Yield L (L.limit k.current) s s') :
    Refines L (processYield K k) s' := by
  obtain ⟨next,hs⟩ := hy.spec h.inv.current hroom h.inv.high h.inv.idle h.inv.own
  have hsched := schedNext_refines (k := schedPoint k) (by rw [schedPoint_current]; exact h.inv.current)
    fun i => by rw [schedPoint_table]; exact h.states i
  have hnext : next = nextSlot k := hs.next_eq.trans hsched.1
  have hstate (i : Slot) : L.state s'.mem i = code ((processYield K k).table i).state :=
    (hs.states i).trans (hsched.2 i)
  subst hnext
  have hnextPid := L.nextPid_apart_stack k.current
  have hcurrent := L.nextPid_current
  have hhigh := h.inv.high
  refine ⟨(h.inv.switch hroom hs).1,h.owned.yield K,hstate,fun i => ?_,fun i => ?_,?_,?_,?_⟩
  · rw [hs.pds,h.pds,LoadedSpace.processYield_pdPhys]
  · have hstack := L.fields_apart_stack k.current i
    have hslot := L.current_slot i
    have hword : L.pid s'.mem i = L.pid s.mem i := word_congr fun x h1 h2 => hs.kept x (by omega) (by omega) fun j => by
      by_cases hij : i = j
      · subst hij
        exact Or.inr h1
      · have hapart := L.slot_apart hij
        omega
    rw [hword,h.pids,TableInvariant.processYield_pid]
  · have hword : word s'.mem L.nextPid = word s.mem L.nextPid :=
      word_congr fun x h1 h2 => hs.kept x (by omega) (by omega) fun j => by
        have hslot := L.nextPid_slot j
        omega
    rw [hword,h.nextPid,TableInvariant.processYield_nextPid]
  · have hpd : (L.pdPhys s'.mem (nextSlot k)).toNat = ((processYield K k).table (nextSlot k)).pdPhys := by
      rw [hs.pds,h.pds,LoadedSpace.processYield_pdPhys]
    have hzero : L.pdPhys s'.mem (nextSlot k) ≠ 0 ↔ ((processYield K k).table (nextSlot k)).pdPhys ≠ 0 := by
      rw [← hpd]
      exact not_congr UInt32.toNat_inj.symm
    rw [hs.cr3,LoadedSpace.processYield_cr3]
    by_cases hz : ((processYield K k).table (nextSlot k)).pdPhys ≠ 0
    · rw [if_pos hz,if_pos (hzero.mpr hz),hpd]
    · rw [if_neg hz,if_neg (mt hzero.mp hz),hK]
  · intro i hi
    obtain rfl := Option.some.inj hi
    have htop := L.top_le (some (nextSlot k))
    rw [hs.esp0]
    exact UInt32.toNat_ofNat_of_lt' (show L.top (some (nextSlot k)) < 2^32 by omega)

/-! ## Calls that do not switch -/

/-- Only states and page directories differ, and the used slots are the same. -/
structure Retabled (L : Layout) (m m' : Mem) : Prop where
  used : ∀ i, L.state m' i = 0 ↔ L.state m i = 0
  apart : ∀ a, (∀ i, a < L.slot i+4 ∨ L.slot i+12 ≤ a) → m' a = m a

theorem Retabled.trans {L : Layout} {m m' m'' : Mem} (h : Retabled L m m') (h' : Retabled L m' m'') : Retabled L m m'' :=
  ⟨fun i => (h'.used i).trans (h.used i),fun a ha => (h'.apart a ha).trans (h.apart a ha)⟩

theorem retabled_setState {L : Layout} {m : Mem} {i : Slot} {st : ProcState} (hi : L.state m i ≠ 0) (hst : st ≠ .unused) :
    Retabled L m (L.setState m i (code st)) := by
  have hr := restated_setState hi (code_ne_zero.mpr hst)
  refine ⟨hr.used,fun a ha => hr.apart a fun j => ?_⟩
  have hj := ha j
  omega

theorem Retabled.word {L : Layout} {m m' : Mem} (h : Retabled L m m') {a : ℕ}
    (ha : ∀ i, a+4 ≤ L.slot i+4 ∨ L.slot i+12 ≤ a) : word m' a = word m a := by
  apply word_congr
  intro x h1 h2
  apply h.apart
  intro i
  have hai := ha i
  omega

theorem Retabled.runs {L : Layout} {o : Option Slot} {s : Core} {m' : Mem} (h : Retabled L s.mem m') (hinv : Inv L o s) :
    Runs L o s { s with mem := m' } := by
  refine ⟨h.word fun i => ?_,rfl,hinv.low,hinv.high,h.used,fun i _ a h1 h2 => h.apart a fun j => ?_,fun i _ _ => ?_,
    fun i hi hused a h1 h2 => h.apart a fun j => ?_⟩
  · have hslot := L.current_slot i
    omega
  · have hfield := L.field_apart i j (show a-L.slot i+4 ≤ 4 ∨ 12 ≤ a-L.slot i by omega) (by omega)
    omega
  · exact h.word (a := L.slot i) fun j => L.field_apart i j (show 0+4 ≤ 4 ∨ 12 ≤ 0 by decide) (by decide)
  · have hlow : L.slot i+60 ≤ (L.esp s.mem i).toNat := (hinv.saved i hi hused).1
    have htop : a < L.slot i+8252 := h2
    have hfield := L.fields_apart_stack (some i) j
    change L.slot j+60 ≤ L.slot i+60 ∨ L.slot i+8252 ≤ L.slot j at hfield
    omega

theorem Refines.retable {L : Layout} {k k' : Kernel} {s : Core} {m' : Mem} (h : Refines L k s) (hr : Retabled L s.mem m')
    (hk : ContextSwitch.Restated k k') (hstates : ∀ i, L.state m' i = code (k'.table i).state)
    (hpds : ∀ i, (L.pdPhys m' i).toNat = (k'.table i).pdPhys) (hpids : ∀ i, (k'.table i).pid = (k.table i).pid)
    (hrest : k'.nextPid = k.nextPid ∧ k'.cr3 = k.cr3 ∧ k'.esp0 = k.esp0) : Refines L k' { s with mem := m' } := by
  have hinv := (h.inv.run (hr.runs h.inv)).1
  rw [← hk.current] at hinv
  refine ⟨hinv,h.owned.restate hk,hstates,hpds,fun i => ?_,?_,?_,?_⟩
  · have hword : L.pid m' i = L.pid s.mem i := hr.word fun j => L.field_apart i j (by decide) (by decide)
    dsimp only
    rw [hword,h.pids,hpids]
  · have hword : word m' L.nextPid = word s.mem L.nextPid := hr.word fun i => by
      have hslot := L.nextPid_slot i
      omega
    dsimp only
    rw [hword,h.nextPid,hrest.1]
  · rw [hrest.2.1]
    exact h.cr3
  · rw [hrest.2.2]
    exact h.esp0

theorem terminateAt_spec {L : Layout} {m : Mem} {i : Slot} (hi : L.state m i ≠ 0) :
    Retabled L m (terminateAt m (L.slot i)) ∧
      (∀ j, L.state (terminateAt m (L.slot i)) j = if j = i then code .zombie else L.state m j) ∧
      ∀ j, L.pdPhys (terminateAt m (L.slot i)) j = if j = i then 0 else L.pdPhys m j := by
  -- the page directory first
  obtain ⟨m₁,hm₁⟩ : ∃ m₁, (if word m (L.slot i+4) ≠ 0 then setWord m (L.slot i+4) 0 else m) = m₁ := ⟨_,rfl⟩
  have hm : terminateAt m (L.slot i) = L.setState m₁ i (code .zombie) := by
    rw [terminateAt,hm₁]
    rfl
  have hstate (j : Slot) : L.state m₁ j = L.state m j := by
    rw [← hm₁]
    split
    · apply word_setWord_of_disjoint
      by_cases hj : j = i
      · subst hj
        omega
      · have hapart := L.slot_apart hj
        omega
    · rfl
  have hpd (j : Slot) : L.pdPhys m₁ j = if j = i then 0 else L.pdPhys m j := by
    rw [← hm₁]
    by_cases hj : j = i
    · subst hj
      rw [if_pos rfl]
      split
      · exact word_setWord ..
      · rename_i hz
        exact not_not.mp hz
    · have hapart := L.slot_apart hj
      rw [if_neg hj]
      split
      · exact word_setWord_of_disjoint _ _ (by omega)
      · rfl
  have hretabled : Retabled L m m₁ := by
    refine ⟨fun j => by rw [hstate],fun a ha => ?_⟩
    have hai := ha i
    rw [← hm₁]
    split
    · exact setWord_of_outside m 0 (by omega)
    · rfl
  rw [hm]
  refine ⟨hretabled.trans (retabled_setState (by rwa [hstate]) (by decide)),fun j => ?_,fun j => ?_⟩
  · rw [state_setState,hstate]
  · rw [← hpd j]
    apply word_setWord_of_disjoint
    by_cases hj : j = i
    · subst hj
      omega
    · have hapart := L.slot_apart hj
      omega

theorem terminate_rest (c : Slot) (k : Kernel) : (terminate c k).nextPid = k.nextPid ∧ (terminate c k).cr3 = k.cr3 ∧
    (terminate c k).esp0 = k.esp0 := by
  unfold terminate
  dsimp only
  split <;> exact ⟨rfl,rfl,rfl⟩

theorem Refines.used {L : Layout} {k : Kernel} {s : Core} (h : Refines L k s) (i : Slot) :
    L.state s.mem i ≠ 0 ↔ (k.table i).state ≠ .unused := by
  rw [h.states]
  exact code_ne_zero

theorem Refines.terminate {L : Layout} {k : Kernel} {s : Core} (h : Refines L k s) {i : Slot}
    (hi : (k.table i).state ≠ .unused) : Refines L (terminate i k) { s with mem := terminateAt s.mem (L.slot i) } := by
  obtain ⟨hr,hstates,hpds⟩ := terminateAt_spec ((h.used i).mpr hi)
  refine h.retable hr (ContextSwitch.restated_terminate hi) (fun j => ?_) (fun j => ?_) (fun j => ?_) (terminate_rest i k)
  all_goals
    rw [terminate_table]
    by_cases hj : j = i
  · rw [hstates,if_pos hj,hj,Function.update_self]
  · rw [hstates,if_neg hj,Function.update_of_ne hj]
    exact h.states j
  · rw [hpds,if_pos hj,hj,Function.update_self]
    rfl
  · rw [hpds,if_neg hj,Function.update_of_ne hj]
    exact h.pds j
  · rw [hj,Function.update_self]
  · rw [Function.update_of_ne hj]

theorem Refines.exitCurrent {L : Layout} {k : Kernel} {s : Core} (h : Refines L k s) :
    Refines L (match k.current with
      | none => k
      | some c => ProcessTable.terminate c k) { s with mem := exitCurrent L s.mem } := by
  have hcur := h.inv.current
  unfold SwitchRefinement.exitCurrent
  rw [hcur]
  cases hc : k.current with
  | none =>
    rw [if_neg (not_not_intro (by rfl))]
    exact h
  | some c =>
    rw [if_pos (L.pointer_ne_zero c),L.pointer_toNat]
    exact h.terminate (h.owned.used c hc)

theorem Refines.setState {L : Layout} {k : Kernel} {s : Core} (h : Refines L k s) {i : Slot} {st : ProcState}
    (hi : (k.table i).state ≠ .unused) (h1 : st ≠ .unused) (h2 : st ≠ .running) :
    Refines L (k.setState i st) { s with mem := L.setState s.mem i (code st) } := by
  refine h.retable (retabled_setState ((h.used i).mpr hi) h1) (ContextSwitch.restated_setState hi h1 h2) (fun j => ?_)
    (fun j => ?_) (fun j => ?_) ⟨rfl,rfl,rfl⟩
  · rw [state_setState,setState_table,h.states]
    split <;> rfl
  · have hpd : L.pdPhys (L.setState s.mem i (code st)) j = L.pdPhys s.mem j := by
      apply word_setWord_of_disjoint
      by_cases hj : j = i
      · subst hj
        omega
      · have hapart := L.slot_apart hj
        omega
    rw [hpd,h.pds,setState_table]
  · rw [setState_table]

theorem Refines.blockCurrent {L : Layout} {k : Kernel} {s : Core} (h : Refines L k s) :
    Refines L (match k.current with
      | none => k
      | some c => k.setState c .blocked) { s with mem := blockCurrent L s.mem } := by
  have hcur := h.inv.current
  unfold SwitchRefinement.blockCurrent
  rw [hcur]
  cases hc : k.current with
  | none =>
    rw [if_neg (not_not_intro (by rfl))]
    exact h
  | some c =>
    rw [if_pos (L.pointer_ne_zero c),L.pointer_toNat]
    exact h.setState (h.owned.used c hc) (by decide) (by decide)

theorem Refines.wakeSlot {L : Layout} {k : Kernel} {s : Core} (h : Refines L k s) (i : Slot) :
    Refines L (processWake (some i) k) { s with mem := wakeSlot L s.mem i } := by
  unfold SwitchRefinement.wakeSlot processWake
  dsimp only
  rw [h.states]
  by_cases hb : (k.table i).state = .blocked
  · rw [if_pos (congrArg code hb),if_pos hb]
    exact h.setState (by rw [hb]; decide) (by decide) (by decide)
  · rw [if_neg (mt code_inj.mp hb),if_neg hb]
    exact h

theorem Refines.kill {L : Layout} {k : Kernel} {s : Core} (h : Refines L k s) {pid : ℕ} (hpid : pid < 2^32) :
    Refines L (processKill pid k).2 { s with mem := kill L (UInt32.ofNat pid) s.mem } := by
  have hfind : (fun i => decide (L.pid s.mem i = UInt32.ofNat pid ∧ L.state s.mem i ≠ code .unused ∧
      L.state s.mem i ≠ code .zombie)) = fun i => decide ((k.table i).pid = pid ∧ (k.table i).state ≠ .unused ∧
        (k.table i).state ≠ .zombie) := by
    funext i
    apply decide_eq_decide.mpr
    rw [h.states,Ne,Ne,code_inj,code_inj,← UInt32.toNat_inj,h.pids,UInt32.toNat_ofNat_of_lt' hpid]
  unfold SwitchRefinement.kill processKill killSlot
  rw [hfind]
  cases hs : (List.finRange 16).find? fun i => decide ((k.table i).pid = pid ∧ (k.table i).state ≠ .unused ∧
      (k.table i).state ≠ .zombie) with
  | none => exact h
  | some i => exact h.terminate (killSlot_spec hs).2.1

theorem processWake_eq (i : Slot) (k : Kernel) : processWake (some i) k =
    { k with table := fun j => if j = i ∧ (k.table j).state = .blocked then { k.table j with state := .ready }
      else k.table j } := by
  unfold processWake
  dsimp only
  by_cases hb : (k.table i).state = .blocked
  · rw [if_pos hb]
    unfold Kernel.setState Kernel.setProc
    congr 1
    funext j
    by_cases hj : j = i
    · rw [hj,Function.update_self,if_pos ⟨rfl,hb⟩]
    · rw [Function.update_of_ne hj,if_neg fun h => hj h.1]
  · rw [if_neg hb]
    refine congrArg (fun t => { k with table := t }) (funext fun j => (if_neg ?_).symm)
    rintro ⟨rfl,h⟩
    exact hb h

theorem wakeSlots_eq (slots : List Slot) (k : Kernel) : slots.foldl (fun k i => processWake (some i) k) k =
    { k with table := fun j => if j ∈ slots ∧ (k.table j).state = .blocked then { k.table j with state := .ready }
      else k.table j } := by
  induction slots generalizing k with
  | nil => simp
  | cons i slots ih =>
    rw [List.foldl_cons,ih,processWake_eq]
    congr 1
    funext j
    by_cases hj : j = i
    · subst hj
      by_cases hb : (k.table j).state = .blocked <;> simp [hb]
    · simp [hj]

theorem Refines.wakeAllBlocked {L : Layout} {k : Kernel} {s : Core} (h : Refines L k s) :
    Refines L (processWakeAllBlocked k) { s with mem := wakeAllBlocked L s.mem } := by
  have hslots (slots : List Slot) (k : Kernel) (s : Core) (h : Refines L k s) :
      Refines L (slots.foldl (fun k i => processWake (some i) k) k)
        { s with mem := slots.foldl (SwitchRefinement.wakeSlot L) s.mem } := by
    induction slots generalizing k s with
    | nil => exact h
    | cons i slots ih => exact ih _ _ (h.wakeSlot i)
  have hall := hslots (List.finRange 16) k s h
  rw [wakeSlots_eq] at hall
  simp only [List.mem_finRange,true_and] at hall
  exact hall

theorem allocSlot_refines {L : Layout} {k : Kernel} {s : Core} (h : Refines L k s) :
    ResumedContexts.allocSlot L s.mem = ProcessTable.allocSlot k := by
  have hfind : (fun i => decide (L.state s.mem i = code .unused)) = fun i => decide ((k.table i).state = .unused) := by
    funext i
    exact decide_eq_decide.mpr (by rw [h.states,code_inj])
  unfold ResumedContexts.allocSlot ProcessTable.allocSlot
  rw [hfind]

theorem Refines.create {L : Layout} {k : Kernel} {s : Core} (h : Refines L k s) (p : NewProcess) (isUser : Bool)
    (userEip userEsp : ℕ) {pdPhys : ℕ} (hpd : p.pdPhys.toNat = pdPhys) :
    Refines L (ProcessTable.createProc isUser userEip userEsp pdPhys k).2 { s with mem := create L p s.mem } := by
  have howned := h.owned.createProc isUser userEip userEsp pdPhys
  have halloc := allocSlot_refines h
  unfold ProcessTable.createProc at howned ⊢
  unfold SwitchRefinement.create
  rw [halloc]
  cases hi : ProcessTable.allocSlot k with
  | none => exact h
  | some i =>
    rw [hi] at howned halloc
    have hfields := createProc_fields L p i s.mem
    have hpid : (word s.mem L.nextPid+1).toNat = (k.nextPid+1)%2^32 := by
      rw [UInt32.toNat_add,h.nextPid]
      rfl
    have hword {j : Slot} (hj : j ≠ i) {off : ℕ} (hoff : off+4 ≤ 8252) :
        word (ResumedContexts.createProc L p i s.mem) (L.slot j+off) = word s.mem (L.slot j+off) :=
      createProc_word L p (Ne.symm hj) s.mem hoff
    refine ⟨(h.inv.create halloc).1,howned,fun j => ?_,fun j => ?_,fun j => ?_,?_,h.cr3,h.esp0⟩
    all_goals dsimp only [Kernel.setProc]
    · by_cases hj : j = i
      · subst hj
        rw [Function.update_self]
        exact hfields.1
      · rw [Function.update_of_ne hj]
        exact (hword hj (by decide)).trans (h.states j)
    · by_cases hj : j = i
      · subst hj
        rw [Function.update_self,hfields.2.1,hpd]
      · rw [Function.update_of_ne hj,← h.pds j]
        exact congrArg UInt32.toNat (hword hj (by decide))
    · by_cases hj : j = i
      · subst hj
        rw [Function.update_self,hfields.2.2.1,hpid]
      · rw [Function.update_of_ne hj,← h.pids j]
        exact congrArg UInt32.toNat (hword hj (by decide))
    · rw [createProc_nextPid,hpid]

/-! ## Runs -/

theorem Refines.elsewhere {L : Layout} {k : Kernel} {s s' : Core} (h : Refines L k s) (hs : Elsewhere L k.current s s') :
    Refines L k s' := by
  have hword (i : Slot) {off : ℕ} (h1 : 4 ≤ off) (h2 : off+4 ≤ 16) : word s'.mem (L.slot i+off) = word s.mem (L.slot i+off) :=
    word_congr fun x hx1 hx2 => hs.table i x (by omega) (by omega)
  refine ⟨(h.inv.run hs.toRuns).1,h.owned,fun i => ?_,fun i => ?_,fun i => ?_,?_,?_,fun i hi => ?_⟩
  · exact (hword i (by decide) (by decide)).trans (h.states i)
  · rw [← h.pds i]
    exact congrArg UInt32.toNat (hword i (by decide) (by decide))
  · rw [← h.pids i]
    exact congrArg UInt32.toNat (hword i (by decide) (by decide))
  · rw [hs.nextPid,h.nextPid]
  · rw [hs.cr3,h.cr3]
  · rw [hs.esp0,h.esp0 i hi]

theorem Refines.does {K : KernelLayout} {L : Layout} (hK : L.kernelPd.toNat = K.pageDirectory) {k : Kernel} {s s' : Core}
    {call : KernelCall} (h : Refines L k s) (hs : Does L call s s') : Refines L (call.apply K k) s' := by
  cases hs with
  | @create p _ hpd => exact h.create p false 0 0 (by rw [hpd]; rfl)
  | @createUser p _ userEip userEsp pdPhys hlt hpd =>
    exact h.create p true userEip userEsp (by rw [hpd,UInt32.toNat_ofNat_of_lt' hlt])
  | kill hlt => exact h.kill hlt
  | @wake _ p =>
    cases p with
    | none => exact h
    | some i => exact h.wakeSlot i
  | wakeAllBlocked => exact h.wakeAllBlocked
  | yield hcur hroom hy =>
    obtain rfl := h.inv.unique hcur
    exact switch_refines hK h hroom hy
  | block hcur hroom hy =>
    obtain rfl := h.inv.unique hcur
    have hblock := h.blockCurrent
    change Refines L (processBlock K k) s'
    unfold processBlock
    cases hc : k.current with
    | none =>
      rw [hc] at hblock hroom hy
      dsimp only at hblock
      rw [← hc] at hroom hy
      exact switch_refines hK hblock hroom hy
    | some c =>
      rw [hc] at hblock hroom hy
      dsimp only at hblock
      have hcurrent : (k.setState c .blocked).current = some c := hc
      rw [← hcurrent] at hroom hy
      exact switch_refines hK hblock hroom hy
  | exit hcur hroom hy =>
    obtain rfl := h.inv.unique hcur
    have hexit := h.exitCurrent
    change Refines L (processExit K k) s'
    unfold processExit
    cases hc : k.current with
    | none =>
      rw [hc] at hexit hroom hy
      dsimp only at hexit
      rw [← hc] at hroom hy
      exact switch_refines hK hexit hroom hy
    | some c =>
      rw [hc] at hexit hroom hy
      dsimp only at hexit
      have hcurrent : (ProcessTable.terminate c k).current = some c := (ContextSwitch.terminate_current c k).trans hc
      rw [← hcurrent] at hroom hy
      exact switch_refines hK hexit hroom hy

theorem Refines.execution {K : KernelLayout} {L : Layout} (hK : L.kernelPd.toNat = K.pageDirectory) {k : Kernel}
    {s s' : Core} {calls : List KernelCall} (h : Refines L k s) (hs : Execution L calls s s') :
    Refines L (Scheduler.run K k calls) s' := by
  induction hs with
  | refl => exact h
  | elsewhere _ hcur hs ih =>
    obtain rfl := (ih h).inv.unique hcur
    exact (ih h).elsewhere hs
  | call _ hs ih =>
    rw [run_snoc]
    exact (ih h).does hK hs

theorem refines_processInit {K : KernelLayout} {L : Layout} (mach : Paging.Machine) (old : Slot → Proc) {s : Core} {name : Mem}
    {idle : UInt32} {m : Mem} (hm : s.mem = ResumedContexts.processInit L name idle m) (hcur : word s.mem L.current = 0)
    (hlow : L.bssEnd ≤ s.esp.toNat) (hhigh : s.esp.toNat ≤ 0x90000) (hcr3 : s.cr3.toNat = K.pageDirectory) :
    Refines L (ProcessTable.processInit K mach old) s := by
  have hinv := Inv.boot hm hcur hlow hhigh
  obtain ⟨m₁,hclear,hpid,-,hinit⟩ := processInit_eq L name idle m
  rw [hinit] at hm
  have hfields := createProc_fields L ⟨0,0,0,0,name,idle⟩ 0 m₁
  have htable {i : Slot} (hi : i ≠ 0) : (ProcessTable.processInit K mach old).table i =
      { old i with state := .unused, pid := 0, pdPhys := 0, isUser := false } := Function.update_of_ne hi _ _
  have hword {i : Slot} (hi : i ≠ 0) {off : ℕ} (hoff : off+4 ≤ 8252) : word s.mem (L.slot i+off) = word m₁ (L.slot i+off) := by
    rw [hm]
    exact createProc_word L _ (Ne.symm hi) m₁ hoff
  refine ⟨hinv,ContextSwitch.stacksOwned_processInit K mach old,fun i => ?_,fun i => ?_,fun i => ?_,?_,hcr3,nofun⟩
  · by_cases hi : i = 0
    · subst hi
      rw [hm]
      exact hfields.1
    · rw [htable hi]
      exact (hword hi (by decide)).trans (hclear i).1
  · by_cases hi : i = 0
    · subst hi
      rw [hm,hfields.2.1]
      rfl
    · rw [htable hi]
      exact congrArg UInt32.toNat ((hword hi (by decide)).trans (hclear i).2.1)
  · by_cases hi : i = 0
    · subst hi
      rw [hm,hfields.2.2.1,hpid]
      rfl
    · rw [htable hi]
      exact congrArg UInt32.toNat ((hword hi (by decide)).trans (hclear i).2.2)
  · rw [hm,createProc_nextPid,hpid]
    rfl

/-- Every execution of the machine from `process_init` on is a run of the abstract table. -/
theorem execution_refines {K : KernelLayout} {L : Layout} (hK : L.kernelPd.toNat = K.pageDirectory) (mach : Paging.Machine)
    (old : Slot → Proc) {s s' : Core} {name : Mem} {idle : UInt32} {m : Mem}
    (hm : s.mem = ResumedContexts.processInit L name idle m) (hcur : word s.mem L.current = 0)
    (hlow : L.bssEnd ≤ s.esp.toNat) (hhigh : s.esp.toNat ≤ 0x90000) (hcr3 : s.cr3.toNat = K.pageDirectory)
    {calls : List KernelCall} (hs : Execution L calls s s') :
    let k := Scheduler.run K (ProcessTable.processInit K mach old) calls
    word s'.mem L.current = L.pointer k.current ∧
      (∀ i, L.state s'.mem i = code (k.table i).state ∧ (L.pid s'.mem i).toNat = (k.table i).pid ∧
        (L.pdPhys s'.mem i).toNat = (k.table i).pdPhys) ∧
      L.limit k.esp.owner ≤ s'.esp.toNat ∧ s'.esp.toNat ≤ L.top k.esp.owner ∧ s'.cr3.toNat = k.cr3 ∧
      ∀ i, k.esp0 = some i → s'.esp0.toNat = L.top (some i) := by
  intro k
  have h := (refines_processInit mach old hm hcur hlow hhigh hcr3).execution hK hs
  have howner := h.owned.onStack
  refine ⟨h.inv.current,fun i => ⟨h.states i,h.pids i,h.pds i⟩,?_,?_,h.cr3,h.esp0⟩
  · rw [howner]
    exact h.inv.low
  · rw [howner]
    exact h.inv.high

/-! ## Processes that yield in a loop -/

/-- Every context stands at least `n` bytes above the limit of its stack, the saved ones once their frame is off it. -/
structure Roomy (L : Layout) (n : ℕ) (k : Kernel) (s : Core) : Prop extends Refines L k s where
  reachable : Reachable L s
  room : L.limit k.current+n ≤ s.esp.toNat
  saved : ∀ i, k.current ≠ some i → L.state s.mem i ≠ 0 → L.limit (some i)+n ≤ (L.esp s.mem i).toNat+20

theorem Roomy.yield {K : KernelLayout} {L : Layout} (hK : L.kernelPd.toNat = K.pageDirectory) {n : ℕ} (hn : 28 ≤ n)
    {k : Kernel} {s : Core} (h : Roomy L n k s) : ∃ s', Yield L (L.limit k.current) s s' ∧ Step L s s' ∧
      Roomy L n (processYield K k) s' := by
  have hroom : L.limit k.current+28 ≤ s.esp.toNat := (Nat.add_le_add_left hn _).trans h.room
  obtain ⟨s',hy⟩ := exists_yield L (L.limit k.current) s
  obtain ⟨next,hs⟩ := hy.spec h.inv.current hroom h.inv.high h.inv.idle h.inv.own
  obtain ⟨hinv,-⟩ := h.inv.switch hroom hs
  obtain ⟨hnext,hrest⟩ := schedNext_spec h.inv.current h.inv.idle h.inv.own
  have hrefines := switch_refines hK h.toRefines hroom hy
  obtain hcur := hrefines.inv.unique hs.current
  have hstep : Step L s s' := .yield h.inv.current hroom h.inv.high hy
  -- whoever is saved, the caller among them, keeps its room
  have hsaved (i : Slot) (hi : L.state s.mem i ≠ 0) : L.limit (some i)+n ≤ (L.esp s'.mem i).toNat+20 := by
    by_cases ho : k.current = some i
    · have hhigh := h.inv.high
      have hlow := h.room
      rw [ho] at hhigh hlow
      rw [hs.ownEsp i ho,Layout.esp_toNat (L := L) (i := i) (by omega)]
      omega
    · rw [hs.esps i ho]
      exact h.saved i ho hi
  refine ⟨s',hy,hstep,hrefines,h.reachable.step hstep,?_,fun i _ hused => hsaved i ?_⟩
  · have htop := L.top_le (some next)
    have hsavedNext : L.limit (some next)+n ≤ (L.esp s'.mem next).toNat+20 := hsaved next (by rwa [hs.next_eq])
    have hbound : (L.esp s'.mem next).toNat+20 ≤ L.top (some next) := by
      by_cases ho : k.current = some next
      · have hhigh := h.inv.high
        rw [ho] at hhigh hroom
        rw [hs.ownEsp next ho,Layout.esp_toNat (L := L) (i := next) (by omega)]
        omega
      · rw [hs.esps next ho]
        exact (h.inv.saved next ho (by rwa [hs.next_eq])).2
    rw [hcur,(hs.resumed (by omega)).2.1]
    exact hsavedNext
  · rw [hs.states] at hused
    exact fun h0 => hused ((hrest.used i).mpr h0)

theorem step_create {L : Layout} {s : Core} {i : Slot} (hi : ResumedContexts.allocSlot L s.mem = some i) (p : NewProcess) :
    Step L s { s with mem := create L p s.mem } := by
  unfold create
  rw [hi]
  exact .create hi

theorem Roomy.create {L : Layout} {n : ℕ} (hn : n ≤ 8192) {k : Kernel} {s : Core} (h : Roomy L n k s) (p : NewProcess)
    (isUser : Bool) (userEip userEsp pdPhys : ℕ) (hpd : p.pdPhys.toNat = pdPhys) :
    Roomy L n (ProcessTable.createProc isUser userEip userEsp pdPhys k).2
      { s with mem := SwitchRefinement.create L p s.mem } := by
  have hrefines := h.toRefines.create p isUser userEip userEsp hpd
  cases hi : ResumedContexts.allocSlot L s.mem with
  | none =>
    have halloc := (allocSlot_refines h.toRefines).symm.trans hi
    have hmem : SwitchRefinement.create L p s.mem = s.mem := by rw [SwitchRefinement.create,hi]
    rw [hmem,ProcessTable.createProc,halloc]
    exact h
  | some i =>
    have hstep := step_create hi p
    have hmem : SwitchRefinement.create L p s.mem = ResumedContexts.createProc L p i s.mem := by
      rw [SwitchRefinement.create,hi]
    rw [hmem] at hrefines hstep ⊢
    have hcur := hrefines.inv.unique ((createProc_current L p i s.mem).trans h.inv.current)
    refine ⟨hrefines,h.reachable.step hstep,?_,fun j hj hused => ?_⟩
    · rw [hcur]
      exact h.room
    · rw [hcur] at hj
      dsimp only at hused ⊢
      by_cases hij : i = j
      · subst hij
        have hlt := L.slot_lt i
        rw [(createProc_frame L p i s.mem).1,UInt32.toNat_ofNat_of_lt' (show L.slot i+8232 < 2^32 by omega)]
        change L.slot i+60+n ≤ L.slot i+8232+20
        omega
      · have hesp : L.esp (ResumedContexts.createProc L p i s.mem) j = L.esp s.mem j :=
          @createProc_word L p i j hij s.mem 0 (by decide)
        have hstate : L.state (ResumedContexts.createProc L p i s.mem) j = L.state s.mem j :=
          createProc_word L p hij s.mem (by decide)
        rw [hstate] at hused
        rw [hesp]
        exact h.saved j hj hused

/-- A history of creations and yields can be executed. -/
theorem Roomy.execution {K : KernelLayout} {L : Layout} (hK : L.kernelPd.toNat = K.pageDirectory) {n : ℕ} (h28 : 28 ≤ n)
    (hn : n ≤ 8192) {k : Kernel} {s : Core} (h : Roomy L n k s) (calls : List KernelCall)
    (hcalls : ∀ call ∈ calls, call = .create ∨ call = .yield) :
    ∃ s', Execution L calls s s' ∧ Roomy L n (Scheduler.run K k calls) s' := by
  induction calls using List.reverseRecOn with
  | nil => exact ⟨s,.refl s,h⟩
  | append_singleton calls call ih =>
    obtain ⟨s₁,hrun,h₁⟩ := ih fun c hc => hcalls c (List.mem_append_left _ hc)
    rw [run_snoc]
    rcases hcalls call (List.mem_append_right _ (List.mem_singleton_self call)) with rfl | rfl
    · exact ⟨_,.call hrun (.create rfl),h₁.create hn ⟨0,0,0,0,fun _ => 0,0x1300⟩ false 0 0 0 rfl⟩
    · obtain ⟨s₂,hy,-,h₂⟩ := h₁.yield hK h28
      exact ⟨s₂,.call hrun (.yield h₁.inv.current ((Nat.add_le_add_left h28 _).trans h₁.room) hy),h₂⟩

theorem roomy_boot : Roomy sampleTable 8192 (ProcessTable.processInit SpaceLifecycle.sampleLayout Exec.bootedKernel.mach
    Exec.bootedKernel.table) bootCore := by
  have hcr3 : bootCore.cr3.toNat = SpaceLifecycle.sampleLayout.pageDirectory := by
    rw [bootCore]
    rfl
  have hboot := refines_processInit Exec.bootedKernel.mach Exec.bootedKernel.table bootCore_mem bootCore_current (by
    rw [bootCore_esp]
    decide) bootCore_esp.le hcr3
  refine ⟨hboot,bootCore_reachable,?_,fun i _ hused => ?_⟩
  · rw [bootCore_esp]
    decide
  · have hstate := processInit_state sampleTable (fun _ => 0) 0x1234 (fun _ => 0) i
    rw [← bootCore_mem] at hstate
    obtain rfl := hstate.1.mp hused
    rw [hstate.2]
    decide

theorem execution_refines_switch : ∃ s', Execution sampleTable [.create,.yield,.create,.yield,.yield,.yield] bootCore s' ∧
    word s'.mem sampleTable.current = sampleTable.pointer (some 0) ∧ sampleTable.state s'.mem 2 = code .ready := by
  have hcr3 : bootCore.cr3.toNat = SpaceLifecycle.sampleLayout.pageDirectory := by
    rw [bootCore]
    rfl
  obtain ⟨s',hrun,-⟩ := roomy_boot.execution (K := SpaceLifecycle.sampleLayout) rfl (by decide) le_rfl
    [.create,.yield,.create,.yield,.yield,.yield] (by simp)
  have hrefines := execution_refines (K := SpaceLifecycle.sampleLayout) rfl Exec.bootedKernel.mach Exec.bootedKernel.table
    bootCore_mem bootCore_current (by
      rw [bootCore_esp]
      decide) bootCore_esp.le hcr3 hrun
  exact ⟨s',hrun,hrefines.1,(hrefines.2.1 2).1⟩

theorem Refines.not_current {L : Layout} {k : Kernel} {s : Core} (h : Refines L k s) {i : Slot} (hi : k.current ≠ some i) :
    word s.mem L.current ≠ L.pointer (some i) := fun he => hi (h.inv.unique he)

/-- The idle process yields to a first process, which creates a second one; both yield in turn. -/
theorem yield_resumes_afterOthers : ∃ s₀ s₁ s₂ s : Core, Reachable sampleTable s₀ ∧
    Yield sampleTable (sampleTable.limit (some 0)) s₀ s₁ ∧ word s₁.mem sampleTable.current = sampleTable.pointer (some 1) ∧
    Yield sampleTable (sampleTable.limit (some 1)) { s₁ with
      mem := create sampleTable ⟨0,0,0,0,fun _ => 0,0x1300⟩ s₁.mem } s₂ ∧
    word s₂.mem sampleTable.current = sampleTable.pointer (some 2) ∧
    Yield sampleTable (sampleTable.limit (some 2)) s₂ s ∧ s.eip = s₀.eip ∧ s.esp = s₀.esp := by
  have hK : sampleTable.kernelPd.toNat = SpaceLifecycle.sampleLayout.pageDirectory := rfl
  obtain ⟨s₀,-,h₀⟩ := roomy_boot.execution hK (by decide) le_rfl [.create,.yield] (by simp)
  generalize hk₀ : Scheduler.run SpaceLifecycle.sampleLayout (ProcessTable.processInit SpaceLifecycle.sampleLayout
    Exec.bootedKernel.mach Exec.bootedKernel.table) [.create,.yield] = k₀ at h₀
  have hcur₀ : k₀.current = some 0 := by rw [← hk₀]; rfl
  obtain ⟨s₁,hy₁,-,h₁⟩ := h₀.yield hK (by decide)
  generalize hk₁ : processYield SpaceLifecycle.sampleLayout k₀ = k₁ at h₁
  have hcur₁ : k₁.current = some 1 := by rw [← hk₁,← hk₀]; rfl
  have halloc : ProcessTable.allocSlot k₁ = some 2 := by rw [← hk₁,← hk₀]; rfl
  have hcreate := step_create ((allocSlot_refines h₁.toRefines).trans halloc) ⟨0,0,0,0,fun _ => 0,0x1300⟩
  have h₁' := h₁.create le_rfl ⟨0,0,0,0,fun _ => 0,0x1300⟩ false 0 0 0 rfl
  generalize hk₁' : (ProcessTable.createProc false 0 0 0 k₁).2 = k₁' at h₁'
  have hcur₁' : k₁'.current = some 1 := by rw [← hk₁',← hk₁,← hk₀]; rfl
  obtain ⟨s₂,hy₂,hstep₂,h₂⟩ := h₁'.yield hK (by decide)
  generalize hk₂ : processYield SpaceLifecycle.sampleLayout k₁' = k₂ at h₂
  have hcur₂ : k₂.current = some 2 := by rw [← hk₂,← hk₁',← hk₁,← hk₀]; rfl
  obtain ⟨s,hy,hstep,h⟩ := h₂.yield hK (by decide)
  have hcur : (processYield SpaceLifecycle.sampleLayout k₂).current = some 0 := by
    rw [← hk₂,← hk₁',← hk₁,← hk₀]
    rfl
  have hothers : Without sampleTable 0 s₁ s :=
    .step (.step (.step .refl (h₁.not_current (by rw [hcur₁]; decide)) hcreate)
      (h₁'.not_current (by rw [hcur₁']; decide)) hstep₂) (h₂.not_current (by rw [hcur₂]; decide)) hstep
  have hroom := h₀.room
  rw [hcur₀] at hy₁ hroom
  rw [hcur₁'] at hy₂
  rw [hcur₂] at hy
  have hresumes := yield_resumes h₀.reachable (h₀.inv.current.trans (congrArg _ hcur₀))
    ((Nat.add_le_add_left (by decide) _).trans hroom) hy₁ hothers (h.inv.current.trans (congrArg _ hcur))
  exact ⟨s₀,s₁,s₂,s,h₀.reachable,hy₁,h₁.inv.current.trans (congrArg _ hcur₁),hy₂,h₂.inv.current.trans (congrArg _ hcur₂),
    hy,hresumes.1,hresumes.2.1⟩

end VesperOS.SwitchRefinement
