import VesperOS.Process.Scheduler
import Mathlib.Tactic.Abel

/-! # Contexts across the switch

A context is the stack it runs on: the kernel stack of a slot, or the boot stack of
the shell. `process_yield` keeps the caller's stack pointer in the slot of
`current_process`, and yielding alone reaches every READY slot. Here a switch is one step.
-/
namespace VesperOS.ContextSwitch
open Paging ProcessTable Scheduler SpaceLifecycle

/-! ## Stacks and slots -/

structure StacksOwned (k : Kernel) : Prop where
  saved : ∀ i, (k.table i).state ≠ .unused → (k.table i).esp.owner = some i
  idle : (k.table 0).state ≠ .unused
  onStack : k.esp.owner = k.current
  used : ∀ c, k.current = some c → (k.table c).state ≠ .unused
  running : ∀ i, (k.table i).state = .running → k.current = some i

/-- Only states of used slots change, and none becomes RUNNING or UNUSED. -/
structure Restated (k k' : Kernel) : Prop where
  current : k'.current = k.current
  esp : k'.esp = k.esp
  saved : ∀ i, (k'.table i).esp = (k.table i).esp
  state : ∀ i, (k'.table i).state = (k.table i).state ∨
    ((k.table i).state ≠ .unused ∧ (k'.table i).state ≠ .unused ∧ (k'.table i).state ≠ .running)

theorem Restated.refl (k : Kernel) : Restated k k := ⟨rfl,rfl,fun _ => rfl,fun _ => Or.inl rfl⟩

theorem Restated.used_iff {k k' : Kernel} (h : Restated k k') (i : Slot) :
    (k'.table i).state ≠ .unused ↔ (k.table i).state ≠ .unused := by
  rcases h.state i with he | ⟨h1,h2,_⟩
  · rw [he]
  · exact iff_of_true h2 h1

theorem StacksOwned.restate {k k' : Kernel} (h : StacksOwned k) (hr : Restated k k') : StacksOwned k' := by
  constructor
  · intro i hi
    rw [hr.saved]
    exact h.saved i ((hr.used_iff i).mp hi)
  · exact (hr.used_iff 0).mpr h.idle
  · rw [hr.esp,hr.current]
    exact h.onStack
  · intro c hc
    rw [hr.current] at hc
    exact (hr.used_iff c).mpr (h.used c hc)
  · intro i hi
    rw [hr.current]
    rcases hr.state i with he | ⟨_,_,h3⟩
    · exact h.running i (he ▸ hi)
    · exact absurd hi h3

theorem restated_setState {k : Kernel} {c : Slot} {st : ProcState} (hc : (k.table c).state ≠ .unused)
    (h1 : st ≠ .unused) (h2 : st ≠ .running) : Restated k (k.setState c st) := by
  refine ⟨rfl,rfl,fun i => by rw [setState_table],fun i => ?_⟩
  rw [setState_table]
  by_cases hi : i = c
  · subst hi
    right
    simp [hc,h1,h2]
  · left
    simp [hi]

theorem terminate_current (c : Slot) (k : Kernel) : (terminate c k).current = k.current := by
  unfold terminate
  dsimp only
  split <;> rfl

theorem terminate_esp (c : Slot) (k : Kernel) : (terminate c k).esp = k.esp := by
  unfold terminate
  dsimp only
  split <;> rfl

theorem restated_terminate {k : Kernel} {c : Slot} (hc : (k.table c).state ≠ .unused) : Restated k (terminate c k) := by
  refine ⟨terminate_current c k,terminate_esp c k,fun i => ?_,fun i => ?_⟩
  all_goals
    rw [terminate_table]
    by_cases hi : i = c
  · subst hi
    simp
  · simp [hi]
  · subst hi
    right
    simp [hc]
  · left
    simp [hi]

theorem restated_wakeAllBlocked (k : Kernel) : Restated k (processWakeAllBlocked k) := by
  refine ⟨rfl,rfl,fun i => ?_,fun i => ?_⟩
  all_goals
    unfold processWakeAllBlocked
    dsimp only
    by_cases hb : (k.table i).state = .blocked
  all_goals simp [hb]

theorem restated_wake (p : Option Slot) (k : Kernel) : Restated k (processWake p k) := by
  unfold processWake
  split
  · exact Restated.refl k
  · split
    · rename_i i hb
      exact restated_setState (by rw [hb]; decide) (by decide) (by decide)
    · exact Restated.refl k

theorem restated_kill (pid : ℕ) (k : Kernel) : Restated k (processKill pid k).2 := by
  unfold processKill
  cases hs : killSlot pid k with
  | none => exact Restated.refl k
  | some i =>
    have hi := killSlot_spec hs
    exact restated_terminate hi.2.1

theorem restated_yieldPoint {k k₀ : Kernel} {call : KernelCall} (h : StacksOwned k)
    (hy : call.yieldPoint k = some k₀) : Restated k k₀ := by
  cases call with
  | exit =>
    cases hy
    cases hc : k.current with
    | none => exact Restated.refl k
    | some c => exact restated_terminate (h.used c hc)
  | block =>
    cases hy
    cases hc : k.current with
    | none => exact Restated.refl k
    | some c => exact restated_setState (h.used c hc) (by decide) (by decide)
  | yield =>
    cases hy
    exact Restated.refl k
  | _ => cases hy

/-! ## Creation and the switch -/

/-- A new process gets an unused slot, a pointer into its own stack and the state READY. -/
theorem createProc_cases (isUser : Bool) (userEip userEsp pdPhys : ℕ) (k : Kernel) :
    (createProc isUser userEip userEsp pdPhys k).2 = k ∨
      ∃ i p n, (k.table i).state = .unused ∧ p.state = .ready ∧ p.esp.owner = some i ∧
        (createProc isUser userEip userEsp pdPhys k).2 = { k.setProc i p with nextPid := n } := by
  unfold createProc
  cases ha : allocSlot k with
  | none => exact Or.inl rfl
  | some j =>
    have hj := allocSlot_unused ha
    exact Or.inr ⟨j,_,_,hj,rfl,rfl,rfl⟩

/-- The state a call can leave slot `r` in. -/
inductive StateAfter (k : Kernel) (call : KernelCall) (r : Slot) (st : ProcState) : Prop
  | same : st = (k.table r).state → StateAfter k call r st
  | runs : Runnable st → StateAfter k call r st
  | blocks : st = .blocked → call = .block → k.current = some r → StateAfter k call r st
  | exits : st = .zombie → call = .exit → k.current = some r → StateAfter k call r st
  | killed (pid : ℕ) : st = .zombie → call = .kill pid → killSlot pid k = some r → StateAfter k call r st

theorem yield_state (K : KernelLayout) (k : Kernel) (r : Slot) :
    ((processYield K k).table r).state = (k.table r).state ∨ Runnable ((processYield K k).table r).state := by
  rw [processYield_state]
  split
  · exact Or.inr (Or.inr rfl)
  · split
    · exact Or.inr (Or.inl rfl)
    · exact Or.inl rfl

theorem state_of_yield {K : KernelLayout} {k : Kernel} {r : Slot} {st : ProcState}
    (h : ((processYield K k).table r).state = st) (hst : ¬ Runnable st) : (k.table r).state = st := by
  have hafter := yield_state K k r
  rw [h] at hafter
  exact (hafter.resolve_right hst).symm

theorem createProc_state (k : Kernel) (r : Slot) (isUser : Bool) (userEip userEsp pdPhys : ℕ) :
    ((createProc isUser userEip userEsp pdPhys k).2.table r).state = (k.table r).state ∨
      ((createProc isUser userEip userEsp pdPhys k).2.table r).state = .ready := by
  rcases createProc_cases isUser userEip userEsp pdPhys k with he | ⟨i,p,n,_,hp,_,he⟩
  · rw [he]
    exact Or.inl rfl
  · rw [he]
    unfold Kernel.setProc
    dsimp only
    by_cases hr : r = i
    · rw [hr,Function.update_self]
      exact Or.inr hp
    · rw [Function.update_of_ne hr]
      exact Or.inl rfl

theorem terminate_state (c r : Slot) (k : Kernel) :
    ((terminate c k).table r).state = if r = c then .zombie else (k.table r).state := by
  rw [terminate_table]
  by_cases hr : r = c
  · rw [hr,Function.update_self,if_pos rfl]
  · rw [Function.update_of_ne hr,if_neg hr]

theorem apply_state (K : KernelLayout) (k : Kernel) (call : KernelCall) (r : Slot) :
    StateAfter k call r ((call.apply K k).table r).state := by
  cases call with
  | create =>
    rcases createProc_state k r false 0 0 0 with h | h
    · exact .same h
    · exact .runs (Or.inl h)
  | createUser userEip userEsp pdPhys =>
    rcases createProc_state k r true userEip userEsp pdPhys with h | h
    · exact .same h
    · exact .runs (Or.inl h)
  | yield =>
    rcases yield_state K k r with h | h
    · exact .same h
    · exact .runs h
  | exit =>
    unfold KernelCall.apply processExit
    cases hc : k.current with
    | none =>
      rcases yield_state K k r with h | h
      · exact .same h
      · exact .runs h
    | some c =>
      rcases yield_state K (terminate c k) r with h | h
      · rw [terminate_state] at h
        by_cases hr : r = c
        · rw [if_pos hr] at h
          exact .exits h rfl (by rw [hc,hr])
        · rw [if_neg hr] at h
          exact .same h
      · exact .runs h
  | block =>
    unfold KernelCall.apply processBlock
    cases hc : k.current with
    | none =>
      rcases yield_state K k r with h | h
      · exact .same h
      · exact .runs h
    | some c =>
      rcases yield_state K (k.setState c .blocked) r with h | h
      · rw [setState_table] at h
        by_cases hr : r = c
        · rw [if_pos hr] at h
          exact .blocks h rfl (by rw [hc,hr])
        · rw [if_neg hr] at h
          exact .same h
      · exact .runs h
  | kill pid =>
    unfold KernelCall.apply processKill
    dsimp only
    cases hs : killSlot pid k with
    | none => exact .same rfl
    | some i =>
      dsimp only
      by_cases hr : r = i
      · exact .killed pid (by rw [terminate_state,if_pos hr]) rfl (by rw [hs,hr])
      · exact .same (by rw [terminate_state,if_neg hr])
  | wake p =>
    unfold KernelCall.apply processWake
    dsimp only
    split
    · exact .same rfl
    · split
      · rename_i i _
        rw [setState_table]
        by_cases hr : r = i
        · exact .runs (Or.inl (if_pos hr))
        · exact .same (if_neg hr)
      · exact .same rfl
  | wakeAllBlocked =>
    unfold KernelCall.apply processWakeAllBlocked
    dsimp only
    split
    · exact .runs (Or.inl rfl)
    · exact .same rfl

/-- A process is BLOCKED after a call only if it was before, or blocked itself. -/
theorem blocked_apply {K : KernelLayout} {k : Kernel} {call : KernelCall} {r : Slot}
    (h : ((call.apply K k).table r).state = .blocked) :
    (k.table r).state = .blocked ∨ (call = .block ∧ k.current = some r) := by
  have hafter := apply_state K k call r
  rw [h] at hafter
  cases hafter with
  | same he => exact Or.inl he.symm
  | runs he => exact absurd he (by decide)
  | blocks _ hcall hcur => exact Or.inr ⟨hcall,hcur⟩
  | exits he => cases he
  | killed _ he => cases he

theorem wakeAllBlocked_state (k : Kernel) (r : Slot) : ((processWakeAllBlocked k).table r).state ≠ .blocked := by
  unfold processWakeAllBlocked
  dsimp only
  split
  · intro hb
    cases hb
  · rename_i h
    exact h

/-- A call that does not switch leaves the running context and its stack alone. -/
theorem apply_stays {K : KernelLayout} {k : Kernel} {call : KernelCall} (hy : call.yieldPoint k = none) :
    (call.apply K k).current = k.current ∧ (call.apply K k).esp = k.esp := by
  have hcreate : ∀ isUser userEip userEsp pdPhys, (createProc isUser userEip userEsp pdPhys k).2.current = k.current ∧
      (createProc isUser userEip userEsp pdPhys k).2.esp = k.esp := by
    intro isUser userEip userEsp pdPhys
    rcases createProc_cases isUser userEip userEsp pdPhys k with he | ⟨_,_,_,_,_,_,he⟩ <;> rw [he] <;> exact ⟨rfl,rfl⟩
  cases call with
  | create => exact hcreate _ _ _ _
  | createUser userEip userEsp pdPhys => exact hcreate _ _ _ _
  | kill pid => exact ⟨(restated_kill pid k).current,(restated_kill pid k).esp⟩
  | wake p => exact ⟨(restated_wake p k).current,(restated_wake p k).esp⟩
  | wakeAllBlocked => exact ⟨rfl,rfl⟩
  | _ => cases hy

theorem StacksOwned.create {k : Kernel} (h : StacksOwned k) {i : Slot} {p : Proc} (n : ℕ)
    (hi : (k.table i).state = .unused) (hp : p.state = .ready) (ho : p.esp.owner = some i) :
    StacksOwned { k.setProc i p with nextPid := n } := by
  have hne : ∀ j, (k.table j).state ≠ .unused → j ≠ i := by
    rintro j hj rfl
    exact hj hi
  constructor
  · intro j hj
    by_cases hji : j = i
    · subst hji
      simpa [Kernel.setProc] using ho
    · simp only [Kernel.setProc,Function.update_of_ne hji] at hj ⊢
      exact h.saved j hj
  · simp only [Kernel.setProc,Function.update_of_ne (hne 0 h.idle)]
    exact h.idle
  · exact h.onStack
  · intro c hc
    simp only [Kernel.setProc,Function.update_of_ne (hne c (h.used c hc))]
    exact h.used c hc
  · intro j hj
    by_cases hji : j = i
    · subst hji
      simp [Kernel.setProc,hp] at hj
    · simp only [Kernel.setProc,Function.update_of_ne hji] at hj
      exact h.running j hj

theorem StacksOwned.createProc {k : Kernel} (h : StacksOwned k) (isUser : Bool) (userEip userEsp pdPhys : ℕ) :
    StacksOwned (ProcessTable.createProc isUser userEip userEsp pdPhys k).2 := by
  rcases createProc_cases isUser userEip userEsp pdPhys k with he | ⟨i,p,n,hi,hp,ho,he⟩
  · rw [he]
    exact h
  · rw [he]
    exact h.create n hi hp ho

/-- The slot switched to is used: it is runnable, or the idle slot. -/
theorem StacksOwned.nextSlot_used {k : Kernel} (h : StacksOwned k) : (k.table (nextSlot k)).state ≠ .unused := by
  have hst : ((schedPoint k).table (nextSlot k)).state = (k.table (nextSlot k)).state := by rw [schedPoint_table]
  by_cases hp : PicksRunnable (schedPoint k)
  · have hr : Runnable (k.table (nextSlot k)).state := hst ▸ hp
    intro hu
    rw [hu] at hr
    rcases hr with hr | hr <;> cases hr
  · rw [nextSlot,schedNext_fallback hp]
    exact h.idle

theorem StacksOwned.yield {k : Kernel} (h : StacksOwned k) (K : KernelLayout) : StacksOwned (processYield K k) := by
  have hused : ∀ i, ((processYield K k).table i).state ≠ .unused → (k.table i).state ≠ .unused := by
    intro i hi hu
    rw [processYield_state] at hi
    split at hi
    · rename_i he
      exact h.nextSlot_used (he ▸ hu)
    · split at hi
      · rename_i hr
        rw [hr.2] at hu
        cases hu
      · exact hi hu
  have hsaved : ∀ i, (k.table i).state ≠ .unused → ((processYield K k).table i).esp.owner = some i := by
    intro i hi
    rw [processYield_saved]
    split
    · rename_i hc
      exact h.onStack.trans hc
    · exact h.saved i hi
  constructor
  · intro i hi
    exact hsaved i (hused i hi)
  · rw [processYield_state]
    split
    · decide
    · split
      · decide
      · exact h.idle
  · rw [processYield_esp,processYield_current]
    exact hsaved (nextSlot k) h.nextSlot_used
  · intro c hc
    rw [processYield_running hc]
    decide
  · intro i hi
    rw [processYield_state] at hi
    rw [processYield_current]
    split at hi
    · rename_i he
      rw [he]
    · split at hi
      · cases hi
      · rename_i hn
        exact absurd ⟨h.running i hi,hi⟩ hn

theorem StacksOwned.apply {k : Kernel} (h : StacksOwned k) (K : KernelLayout) (call : KernelCall) :
    StacksOwned (call.apply K k) := by
  cases hy : call.yieldPoint k with
  | some k₀ =>
    rw [apply_yieldPoint hy]
    exact (h.restate (restated_yieldPoint h hy)).yield K
  | none =>
    cases call with
    | create => exact h.createProc _ _ _ _
    | createUser userEip userEsp pdPhys => exact h.createProc _ _ _ _
    | kill pid => exact h.restate (restated_kill pid k)
    | wake p => exact h.restate (restated_wake p k)
    | wakeAllBlocked => exact h.restate (restated_wakeAllBlocked k)
    | _ => cases hy

theorem StacksOwned.run {k : Kernel} (h : StacksOwned k) (K : KernelLayout) (calls : List KernelCall) :
    StacksOwned (Scheduler.run K k calls) := by
  induction calls generalizing k with
  | nil => exact h
  | cons call calls ih => exact ih (h.apply K call)

theorem processInit_current (K : KernelLayout) (mach : Machine) (old : Slot → Proc) :
    (processInit K mach old).current = none := by
  unfold processInit processCreate
  rcases createProc_cases false 0 0 0 _ with he | ⟨_,_,_,_,_,_,he⟩
  · rw [he]
  · rw [he]
    rfl

theorem stacksOwned_processInit (K : KernelLayout) (mach : Machine) (old : Slot → Proc) :
    StacksOwned (processInit K mach old) := by
  have hstate : ∀ i : Slot, i ≠ 0 → ((processInit K mach old).table i).state = .unused := by
    intro i hi
    have ht : (processInit K mach old).table i = { old i with
        state := .unused, pid := 0, pdPhys := 0, isUser := false } := Function.update_of_ne hi _ _
    rw [ht]
  have hzero : ((processInit K mach old).table 0).state = .ready := rfl
  constructor
  · intro i hi
    by_cases h0 : i = 0
    · subst h0
      rfl
    · exact absurd (hstate i h0) hi
  · rw [hzero]
    decide
  · rfl
  · intro c hc
    cases hc
  · intro i hi
    by_cases h0 : i = 0
    · subst h0
      rw [hzero] at hi
      cases hi
    · rw [hstate i h0] at hi
      cases hi

/-! ## Bringing a context back -/

theorem find?_finRange_le {n : ℕ} {q : Fin n → Bool} {m x : Fin n} (h : (List.finRange n).find? q = some m)
    (hx : q x = true) : m ≤ x := by
  obtain ⟨_,pre,post,he,hpre⟩ := List.find?_eq_some_iff_append.mp h
  have hmem := List.mem_finRange x
  have hsorted := List.pairwise_lt_finRange n
  rw [he] at hmem hsorted
  rcases List.mem_append.mp hmem with hin | hin
  · have hq := hpre x hin
    rw [hx] at hq
    cases hq
  · rcases List.mem_cons.mp hin with rfl | hin
    · exact le_refl _
    · have hpw := (List.pairwise_append.mp hsorted).2.1
      exact le_of_lt ((List.pairwise_cons.mp hpw).1 x hin)

/-- With `c` READY, the round robin from `d` goes no further than `c`. -/
theorem nextSlot_distance {k : Kernel} {c d : Slot} (hd : k.current = some d) (hc : (k.table c).state = .ready) :
    ∃ m : Fin 16, nextSlot k = d+m+1 ∧ m ≤ c-d-1 := by
  have hcur : (schedPoint k).current = some d := (schedPoint_current k).trans hd
  have hready : ((released (schedPoint k)).table c).state = .ready :=
    (released_ready hcur).mpr (Or.inl (by rw [schedPoint_table]; exact hc))
  have hreach : d+(c-d-1)+1 = c := by abel
  unfold nextSlot
  rw [schedNext_some hcur,firstSlot,after,List.find?_map]
  cases hf : (List.finRange 16).find?
      ((fun i => decide (((released (schedPoint k)).table i).state = .ready)) ∘ fun n => d+n+1) with
  | none =>
    have hn := List.find?_eq_none.mp hf (c-d-1) (List.mem_finRange _)
    simp [hreach,hready] at hn
  | some m =>
    exact ⟨m,rfl,find?_finRange_le hf (by simp [hreach,hready])⟩

theorem distance_lt {c d m : Slot} (hm : m ≤ c-d-1) (hne : d+m+1 ≠ c) : (c-(d+m+1)-1).val < (c-d-1).val := by
  have heq : c-(d+m+1)-1 = (c-d-1)-m-1 := by abel
  have hlt : m ≠ c-d-1 := by
    rintro rfl
    exact hne (by abel)
  have hdec : ∀ m x : Fin 16, m ≤ x → m ≠ x → (x-m-1).val < x.val := by decide
  rw [heq]
  exact hdec m (c-d-1) hm hlt

/-- A READY slot other than the current one is reached by yielding alone. -/
theorem resume_ready (K : KernelLayout) (n : ℕ) {k : Kernel} {c d : Slot} (hd : k.current = some d) (hne : d ≠ c)
    (hc : (k.table c).state = .ready) (hn : (c-d-1).val < n) :
    ∃ m, (Scheduler.run K k (List.replicate m .yield)).current = some c ∧
      (Scheduler.run K k (List.replicate m .yield)).esp = (k.table c).esp.popFrame := by
  induction n generalizing k d with
  | zero => cases hn
  | succ n ih =>
    obtain ⟨m,hnext,hm⟩ := nextSlot_distance hd hc
    have hkeep : ((processYield K k).table c).esp = (k.table c).esp := by
      rw [processYield_saved,if_neg]
      rw [hd]
      exact fun he => hne (Option.some.inj he)
    by_cases hpick : nextSlot k = c
    · refine ⟨1,?_,?_⟩
      · exact (processYield_current K k).trans (congrArg some hpick)
      · rw [← hkeep,← hpick]
        rfl
    · have hstate : ((processYield K k).table c).state = .ready := by
        rw [processYield_state,if_neg (Ne.symm hpick),if_neg,hc]
        rintro ⟨_,hr⟩
        rw [hc] at hr
        cases hr
      have hcloser := distance_lt hm (hnext ▸ hpick)
      obtain ⟨steps,h1,h2⟩ := ih (processYield_current K k) hpick hstate (by rw [hnext]; omega)
      exact ⟨steps+1,h1,h2.trans (congrArg StackPtr.popFrame hkeep)⟩

end VesperOS.ContextSwitch
