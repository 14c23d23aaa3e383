import VesperOS.Process.Exec

/-! # The scheduler over whole runs

A run is any sequence of calls of the functions of `process.h` after
`process_init`, each executed to its end. What one call of `sched_next` and one
context switch do to the table is said once; the runs only use these facts.
-/
namespace VesperOS.Scheduler
open Paging ProcessTable SpaceLifecycle

inductive KernelCall where
  | create
  | createUser (userEip userEsp pdPhys : ℕ)
  | exit
  | kill (pid : ℕ)
  | block
  | wake (p : Option Slot)
  | wakeAllBlocked
  | yield

def KernelCall.apply (K : KernelLayout) (k : Kernel) : KernelCall → Kernel
  | .create => (processCreate k).2
  | .createUser userEip userEsp pdPhys => (processCreateUser userEip userEsp pdPhys k).2
  | .exit => processExit K k
  | .kill pid => (processKill pid k).2
  | .block => processBlock K k
  | .wake p => processWake p k
  | .wakeAllBlocked => processWakeAllBlocked k
  | .yield => processYield K k

def run (K : KernelLayout) (k : Kernel) (calls : List KernelCall) : Kernel :=
  calls.foldl (KernelCall.apply K) k

/-- The state in which a call enters `process_yield`, for the calls that do. -/
def KernelCall.yieldPoint (k : Kernel) : KernelCall → Option Kernel
  | .exit => some (match k.current with
    | none => k
    | some c => terminate c k)
  | .block => some (match k.current with
    | none => k
    | some c => k.setState c .blocked)
  | .yield => some k
  | _ => none

/-- The state in which `process_yield` calls `sched_next`. -/
def schedPoint (k : Kernel) : Kernel := saveEsp { k with esp := k.esp.pushFrame }

theorem apply_yieldPoint {K : KernelLayout} {k k₀ : Kernel} {call : KernelCall} (h : call.yieldPoint k = some k₀) :
    call.apply K k = processYield K k₀ := by
  cases call <;> cases h <;> rfl

@[simp] theorem run_nil (K : KernelLayout) (k : Kernel) : run K k [] = k := rfl

theorem run_append (K : KernelLayout) (k : Kernel) (xs ys : List KernelCall) :
    run K k (xs++ys) = run K (run K k xs) ys := List.foldl_append

theorem run_snoc (K : KernelLayout) (k : Kernel) (xs : List KernelCall) (call : KernelCall) :
    run K k (xs++[call]) = call.apply K (run K k xs) := run_append K k xs [call]

/-! ## One scheduling decision -/

theorem firstSlot_spec {k : Kernel} {test : ProcState → Bool} {slots : List Slot} {i : Slot}
    (h : firstSlot k test slots = some i) : test (k.table i).state = true := by
  have hs := List.find?_some h
  exact hs

theorem firstSlot_none {k : Kernel} {test : ProcState → Bool} {slots : List Slot}
    (h : firstSlot k test slots = none) {i : Slot} (hi : i ∈ slots) : test (k.table i).state = false := by
  unfold firstSlot at h
  exact Bool.eq_false_iff.mpr (List.find?_eq_none.mp h i hi)

theorem mem_after (c i : Slot) : i ∈ after c := by
  refine List.mem_map.mpr ⟨i-c-1,List.mem_finRange _,?_⟩
  revert c i
  decide

theorem setState_table (k : Kernel) (i j : Slot) (st : ProcState) :
    (k.setState i st).table j = { k.table j with state := if j = i then st else (k.table j).state } := by
  unfold Kernel.setState Kernel.setProc
  by_cases h : j = i
  · subst h
    simp
  · simp [h]

/-- `sched_next` up to its last write: the caller's slot back to READY if it was RUNNING. -/
def released (k : Kernel) : Kernel :=
  match k.current with
  | none => k
  | some c => if (k.table c).state = .running then k.setState c .ready else k

theorem schedNext_snd (k : Kernel) : (schedNext k).2 = (released k).setState (schedNext k).1 .running := by
  unfold schedNext released
  cases k.current with
  | none =>
    dsimp only
    split <;> rfl
  | some c =>
    dsimp only
    split <;> rfl

theorem released_table (k : Kernel) (j : Slot) :
    (released k).table j = { k.table j with
      state := if k.current = some j ∧ (k.table j).state = .running then .ready else (k.table j).state } := by
  unfold released
  cases hc : k.current with
  | none => simp
  | some c =>
    dsimp only
    by_cases hr : (k.table c).state = .running
    · rw [if_pos hr,setState_table]
      by_cases hj : j = c
      · subst hj
        simp [hr]
      · have hne : c ≠ j := fun h => hj h.symm
        simp [hj,hne]
    · rw [if_neg hr]
      have hnot : ¬ (some c = some j ∧ (k.table j).state = .running) := by
        rintro ⟨he,hj⟩
        cases he
        exact hr hj
      rw [if_neg hnot]

/-- The slot chosen becomes RUNNING, after the caller's went back to READY if it was RUNNING. -/
theorem schedNext_state (k : Kernel) (j : Slot) :
    ((schedNext k).2.table j).state = if j = (schedNext k).1 then .running
      else if k.current = some j ∧ (k.table j).state = .running then .ready else (k.table j).state := by
  rw [schedNext_snd,setState_table,released_table]

theorem schedNext_saved (k : Kernel) (j : Slot) : ((schedNext k).2.table j).esp = (k.table j).esp := by
  rw [schedNext_snd,setState_table,released_table]

/-- READY or RUNNING. -/
def Runnable (st : ProcState) : Prop := st = .ready ∨ st = .running

instance (st : ProcState) : Decidable (Runnable st) := inferInstanceAs (Decidable (st = .ready ∨ st = .running))

/-- Somebody can run: one of the first two selection paths succeeds, or the slot
of the fallback is RUNNING. -/
def Eligible (k : Kernel) : Prop :=
  match k.current with
  | none => ∃ i, Runnable (k.table i).state
  | some c => (∃ i, (k.table i).state = .ready) ∨ (k.table c).state = .running ∨ (k.table idleSlot).state = .running

/-- `sched_next` returns a slot that was READY or RUNNING. -/
def PicksRunnable (k : Kernel) : Prop := Runnable (k.table (schedNext k).1).state

theorem schedNext_bootstrap {k : Kernel} (hc : k.current = none) : PicksRunnable k ↔ ∃ i, Runnable (k.table i).state := by
  constructor
  · intro h
    exact ⟨_,h⟩
  · rintro ⟨i,hi⟩
    unfold PicksRunnable schedNext
    rw [hc]
    dsimp only
    cases hf : firstSlot k (fun st => st = .ready ∨ st = .running) (List.finRange 16) with
    | none =>
      have hn := firstSlot_none hf (List.mem_finRange i)
      simp only [decide_eq_false_iff_not] at hn
      exact absurd hi hn
    | some j =>
      have hj := firstSlot_spec hf
      simp only [decide_eq_true_eq] at hj
      exact hj

theorem released_ready {k : Kernel} {c i : Slot} (hc : k.current = some c) :
    ((released k).table i).state = .ready ↔ (k.table i).state = .ready ∨ (i = c ∧ (k.table c).state = .running) := by
  rw [released_table,hc]
  by_cases hi : i = c
  · subst hi
    by_cases hr : (k.table i).state = .running <;> simp [hr]
  · have hne : c ≠ i := fun h => hi h.symm
    simp [hi,hne]

theorem schedNext_some {k : Kernel} {c : Slot} (hc : k.current = some c) :
    (schedNext k).1 = (firstSlot (released k) (fun st => st = .ready) (after c)).getD 0 := by
  unfold schedNext released
  rw [hc]
  dsimp only
  split <;> rename_i h <;> rw [h] <;> rfl

theorem schedNext_roundRobin {k : Kernel} {c : Slot} (hc : k.current = some c) :
    PicksRunnable k ↔ (∃ i, (k.table i).state = .ready) ∨ (k.table c).state = .running ∨
      (k.table 0).state = .running := by
  unfold PicksRunnable
  rw [schedNext_some hc]
  cases hf : firstSlot (released k) (fun st => st = .ready) (after c) with
  | none =>
    have hn : ∀ i, ((released k).table i).state ≠ .ready := by
      intro i
      have hi := firstSlot_none hf (mem_after c i)
      simp only [decide_eq_false_iff_not] at hi
      exact hi
    have hready : ∀ i, (k.table i).state ≠ .ready := fun i hi => hn i ((released_ready hc).mpr (Or.inl hi))
    have hrun : (k.table c).state ≠ .running := fun h => hn c ((released_ready hc).mpr (Or.inr ⟨rfl,h⟩))
    rw [Option.getD_none]
    constructor
    · intro h
      exact Or.inr (Or.inr (h.resolve_left (hready 0)))
    · rintro (⟨i,hi⟩ | h | h)
      · exact absurd hi (hready i)
      · exact absurd h hrun
      · exact Or.inr h
  | some j =>
    have hj := firstSlot_spec hf
    simp only [decide_eq_true_eq] at hj
    rw [Option.getD_some]
    rcases (released_ready hc).mp hj with hj | ⟨rfl,hj⟩
    · exact iff_of_true (Or.inl hj) (Or.inl ⟨j,hj⟩)
    · exact iff_of_true (Or.inr hj) (Or.inr (Or.inl hj))

/-- Without anybody to pick, the fallback is the idle slot. -/
theorem schedNext_fallback {k : Kernel} (h : ¬ PicksRunnable k) : (schedNext k).1 = 0 := by
  unfold PicksRunnable at h
  cases hc : k.current with
  | none =>
    unfold schedNext at h ⊢
    rw [hc] at h ⊢
    dsimp only at h ⊢
    split at h
    · rename_i hf
      have hj := firstSlot_spec hf
      simp only [decide_eq_true_eq] at hj
      exact absurd hj h
    · rfl
  | some c =>
    rw [schedNext_some hc] at h ⊢
    cases hf : firstSlot (released k) (fun st => st = .ready) (after c) with
    | none => rfl
    | some j =>
      have hj := firstSlot_spec hf
      simp only [decide_eq_true_eq] at hj
      rw [hf,Option.getD_some] at h
      rcases (released_ready hc).mp hj with hj | ⟨rfl,hj⟩
      · exact absurd (Or.inl hj) h
      · exact absurd (Or.inr hj) h

theorem picksRunnable_iff (k : Kernel) : PicksRunnable k ↔ Eligible k := by
  unfold Eligible
  cases hc : k.current with
  | none => exact schedNext_bootstrap hc
  | some c => exact schedNext_roundRobin hc

/-! ## One context switch -/

theorem schedPoint_current (k : Kernel) : (schedPoint k).current = k.current := by
  unfold schedPoint saveEsp
  split <;> rfl

theorem schedPoint_table (k : Kernel) (j : Slot) : (schedPoint k).table j = { k.table j with
    esp := if k.current = some j then k.esp.pushFrame else (k.table j).esp } := by
  unfold schedPoint saveEsp
  cases hc : k.current with
  | none => simp
  | some c =>
    by_cases hj : j = c
    · subst hj
      simp [Kernel.setProc]
    · have hne : c ≠ j := fun h => hj h.symm
      simp [Kernel.setProc,hj,hne]

theorem eligible_schedPoint (k : Kernel) : Eligible (schedPoint k) ↔ Eligible k := by
  unfold Eligible
  rw [schedPoint_current]
  simp only [schedPoint_table]

/-- The slot that `process_yield` switches to. -/
def nextSlot (k : Kernel) : Slot := (schedNext (schedPoint k)).1

section Yield
variable (K : KernelLayout) (k : Kernel)

theorem processYield_current : (processYield K k).current = some (nextSlot k) := rfl

theorem processYield_esp : (processYield K k).esp = ((processYield K k).table (nextSlot k)).esp.popFrame := rfl

theorem processYield_saved (j : Slot) : ((processYield K k).table j).esp =
    if k.current = some j then k.esp.pushFrame else (k.table j).esp := by
  have h : (processYield K k).table = (schedNext (schedPoint k)).2.table := rfl
  rw [h,schedNext_saved,schedPoint_table]

theorem processYield_state (j : Slot) : ((processYield K k).table j).state =
    if j = nextSlot k then .running
      else if k.current = some j ∧ (k.table j).state = .running then .ready else (k.table j).state := by
  have h : (processYield K k).table = (schedNext (schedPoint k)).2.table := rfl
  rw [h,schedNext_state,schedPoint_current]
  simp only [schedPoint_table]
  rfl

variable {K k} in
theorem processYield_running {c : Slot} (hc : (processYield K k).current = some c) :
    ((processYield K k).table c).state = .running := by
  rw [processYield_current] at hc
  cases hc
  rw [processYield_state,if_pos rfl]

end Yield

/-! ## Terminated processes -/

def Zombie (k : Kernel) (i : Slot) : Prop := (k.table i).state = .zombie

theorem terminate_table (c : Slot) (k : Kernel) :
    (terminate c k).table = Function.update k.table c { k.table c with pdPhys := 0, state := .zombie } := by
  unfold terminate
  by_cases hpd : (k.table c).pdPhys ≠ 0
  · simp only [if_pos hpd]
    rfl
  · simp only [if_neg hpd]
    rfl

theorem zombie_terminate {k : Kernel} {c i : Slot} (h : Zombie k i) : Zombie (terminate c k) i := by
  unfold Zombie at *
  rw [terminate_table]
  by_cases hi : i = c
  · subst hi
    simp
  · simpa [hi] using h

theorem zombie_createProc {k : Kernel} {i : Slot} {isUser : Bool} {userEip userEsp pdPhys : ℕ} (h : Zombie k i) :
    Zombie (createProc isUser userEip userEsp pdPhys k).2 i := by
  unfold createProc
  cases ha : allocSlot k with
  | none => exact h
  | some j =>
    have hj := allocSlot_unused ha
    have hne : i ≠ j := by
      rintro rfl
      rw [h] at hj
      cases hj
    unfold Zombie Kernel.setProc at *
    simpa [hne] using h

theorem zombie_yield {K : KernelLayout} {k : Kernel} {i : Slot} (hok : PicksRunnable (schedPoint k))
    (h : Zombie k i) : Zombie (processYield K k) i := by
  have hne : i ≠ nextSlot k := by
    intro hi
    have hst : Runnable ((schedPoint k).table i).state := hi ▸ hok
    rw [schedPoint_table] at hst
    rcases hst with hst | hst <;> rw [show (k.table i).state = .zombie from h] at hst <;> cases hst
  unfold Zombie at *
  rw [processYield_state,if_neg hne,if_neg,h]
  rintro ⟨_,hr⟩
  rw [h] at hr
  cases hr

/-- What is asked of one call: zombies stay, and `sched_next` picks a slot that can run. -/
structure CallSafe (K : KernelLayout) (k : Kernel) (call : KernelCall) : Prop where
  zombies : ∀ i, Zombie k i → Zombie (call.apply K k) i
  picks : ∀ k₀, call.yieldPoint k = some k₀ → PicksRunnable (schedPoint k₀)

/-- `process_block` is not called by a terminated process, and whenever
`sched_next` is called there is somebody to run. -/
structure CallMeets (k : Kernel) (call : KernelCall) : Prop where
  block : call = .block → ∀ c, k.current = some c → ¬ Zombie k c
  eligible : ∀ k₀, call.yieldPoint k = some k₀ → Eligible k₀

theorem picks_iff_eligible (k : Kernel) (call : KernelCall) :
    (∀ k₀, call.yieldPoint k = some k₀ → PicksRunnable (schedPoint k₀)) ↔
      ∀ k₀, call.yieldPoint k = some k₀ → Eligible k₀ := by
  simp only [picksRunnable_iff,eligible_schedPoint]

theorem zombie_yieldPoint {k k₀ : Kernel} {call : KernelCall} {i : Slot} (hy : call.yieldPoint k = some k₀)
    (hb : call = .block → ∀ c, k.current = some c → ¬ Zombie k c) (h : Zombie k i) : Zombie k₀ i := by
  cases call with
  | exit =>
    cases hy
    cases k.current with
    | none => exact h
    | some c => exact zombie_terminate h
  | block =>
    cases hy
    cases hc : k.current with
    | none => exact h
    | some c =>
      have hne : i ≠ c := by
        rintro rfl
        exact hb rfl i hc h
      unfold Zombie at *
      simpa [setState_table,hne] using h
  | yield =>
    cases hy
    exact h
  | _ => cases hy

theorem zombie_of_not_yield {K : KernelLayout} {k : Kernel} {call : KernelCall} {i : Slot}
    (hy : call.yieldPoint k = none) (h : Zombie k i) : Zombie (call.apply K k) i := by
  cases call with
  | create => exact zombie_createProc h
  | createUser => exact zombie_createProc h
  | kill pid =>
    change Zombie (processKill pid k).2 i
    unfold processKill
    split
    · exact h
    · exact zombie_terminate h
  | wake p =>
    change Zombie (processWake p k) i
    unfold processWake
    split
    · exact h
    · split
      · rename_i j hj
        have hne : i ≠ j := by
          rintro rfl
          rw [h] at hj
          cases hj
        unfold Zombie at *
        simpa [setState_table,hne] using h
      · exact h
  | wakeAllBlocked =>
    unfold Zombie KernelCall.apply processWakeAllBlocked at *
    simp [h]
  | _ => cases hy

theorem callSafe_iff (K : KernelLayout) (k : Kernel) (call : KernelCall) : CallSafe K k call ↔ CallMeets k call := by
  constructor
  · intro h
    constructor
    · -- the caller's slot is BLOCKED before the switch, and a switch makes nobody a zombie
      rintro rfl c hc hz
      have hafter := h.zombies c hz
      unfold Zombie KernelCall.apply processBlock at hafter
      rw [hc] at hafter
      dsimp only at hafter
      rw [processYield_state] at hafter
      split at hafter
      · cases hafter
      · simp [setState_table] at hafter
    · exact (picks_iff_eligible k call).mp h.picks
  · intro h
    have hp := (picks_iff_eligible k call).mpr h.eligible
    refine ⟨?_,hp⟩
    intro i hi
    cases hy : call.yieldPoint k with
    | none => exact zombie_of_not_yield hy hi
    | some k₀ =>
      rw [apply_yieldPoint hy]
      exact zombie_yield (hp k₀ hy) (zombie_yieldPoint hy h.block hi)

/-- Over a whole run: a slot that is ZOMBIE stays ZOMBIE, and no call of `sched_next` returns a slot that was
ZOMBIE, BLOCKED or UNUSED. -/
structure TerminatedStayDown (K : KernelLayout) (k : Kernel) (calls : List KernelCall) : Prop where
  stay : ∀ pre mid post, calls = pre++mid++post → ∀ i, Zombie (run K k pre) i → Zombie (run K k (pre++mid)) i
  picks : ∀ pre call post, calls = pre++call :: post → ∀ k₀, call.yieldPoint (run K k pre) = some k₀ →
    PicksRunnable (schedPoint k₀)

/-- From any state, in particular from the one `process_init` leaves. -/
theorem terminatedStayDown_iff (K : KernelLayout) (k : Kernel) (calls : List KernelCall) :
    TerminatedStayDown K k calls ↔
      ∀ pre call post, calls = pre++call :: post → CallMeets (run K k pre) call := by
  constructor
  · intro h pre call post he
    apply (callSafe_iff K (run K k pre) call).mp
    constructor
    · intro i hi
      have hmid := h.stay pre [call] post (by rw [he,List.append_assoc]; rfl) i hi
      rw [run_snoc] at hmid
      exact hmid
    · exact h.picks pre call post he
  · intro h
    have hsafe : ∀ pre call post, calls = pre++call :: post → CallSafe K (run K k pre) call := by
      intro pre call post he
      exact (callSafe_iff K _ call).mpr (h pre call post he)
    constructor
    · intro pre mid
      induction mid generalizing pre with
      | nil =>
        intro post _ i hi
        rw [List.append_nil]
        exact hi
      | cons call mid ih =>
        intro post he i hi
        rw [List.append_assoc,List.cons_append] at he
        have hstep := (hsafe pre call (mid++post) he).zombies i hi
        rw [← run_snoc] at hstep
        have hrest := ih (pre++[call]) post (by rw [he]; simp) i hstep
        rw [List.append_cons]
        exact hrest
    · intro pre call post he
      exact (hsafe pre call post he).picks

/-- `kill 1` in the shell, then a yield: the idle process is run by the fallback although it is terminated. -/
theorem killed_idle_runs : ¬ TerminatedStayDown sampleLayout Exec.bootedKernel [.kill 1,.yield] := by
  intro h
  have hz : Zombie (run sampleLayout Exec.bootedKernel [.kill 1]) 0 := rfl
  have hstay : Zombie (run sampleLayout Exec.bootedKernel [.kill 1,.yield]) 0 :=
    h.stay [.kill 1] [.yield] [] rfl 0 hz
  have hrun : ((run sampleLayout Exec.bootedKernel [.kill 1,.yield]).table 0).state = .running := rfl
  rw [hstay] at hrun
  cases hrun

end VesperOS.Scheduler
