import VesperOS.Process.ContextSwitch

/-! # The process table over whole runs

PIDs are handed out in order and a slot that was used once is never UNUSED again,
so the counter `next_pid` is the number of slots in use. It follows that no two slots
share a PID, and that the table is full for good once sixteen processes were created.
-/
namespace VesperOS.TableInvariant
open Paging ProcessTable Scheduler ContextSwitch SpaceLifecycle

def usedSlots (k : Kernel) : Finset Slot := Finset.univ.filter (fun i => (k.table i).state ≠ .unused)

theorem mem_usedSlots {k : Kernel} {i : Slot} : i ∈ usedSlots k ↔ (k.table i).state ≠ .unused := by
  unfold usedSlots
  rw [Finset.mem_filter]
  exact and_iff_right (Finset.mem_univ i)

structure PidsDistinct (k : Kernel) : Prop where
  count : k.nextPid = (usedSlots k).card
  positive : ∀ i ∈ usedSlots k, 0 < (k.table i).pid
  issued : ∀ i ∈ usedSlots k, (k.table i).pid ≤ k.nextPid
  distinct : ∀ i ∈ usedSlots k, ∀ j ∈ usedSlots k, (k.table i).pid = (k.table j).pid → i = j

/-- The same slots are in use, under the same PIDs. -/
structure SamePids (k k' : Kernel) : Prop where
  nextPid : k'.nextPid = k.nextPid
  pid : ∀ i, (k'.table i).pid = (k.table i).pid
  used : usedSlots k' = usedSlots k

theorem SamePids.refl (k : Kernel) : SamePids k k := ⟨rfl,fun _ => rfl,rfl⟩

theorem PidsDistinct.same {k k' : Kernel} (h : PidsDistinct k) (hs : SamePids k k') : PidsDistinct k' := by
  constructor
  · rw [hs.nextPid,hs.used]
    exact h.count
  · intro i hi
    rw [hs.pid]
    exact h.positive i (hs.used ▸ hi)
  · intro i hi
    rw [hs.pid,hs.nextPid]
    exact h.issued i (hs.used ▸ hi)
  · intro i hi j hj he
    rw [hs.pid,hs.pid] at he
    exact h.distinct i (hs.used ▸ hi) j (hs.used ▸ hj) he

theorem PidsDistinct.le {k : Kernel} (h : PidsDistinct k) : k.nextPid ≤ 16 := by
  rw [h.count]
  exact (Finset.card_le_univ _).trans (by simp)

/-! ## Calls that create nothing -/

theorem usedSlots_restated {k k' : Kernel} (h : Restated k k') : usedSlots k' = usedSlots k := by
  ext i
  rw [mem_usedSlots,mem_usedSlots]
  exact h.used_iff i

theorem terminate_pid (c : Slot) (k : Kernel) (i : Slot) : ((terminate c k).table i).pid = (k.table i).pid := by
  rw [terminate_table]
  by_cases hi : i = c
  · subst hi
    simp
  · simp [hi]

theorem terminate_nextPid (c : Slot) (k : Kernel) : (terminate c k).nextPid = k.nextPid := by
  unfold terminate
  dsimp only
  split <;> rfl

theorem samePids_terminate {k : Kernel} {c : Slot} (hc : (k.table c).state ≠ .unused) : SamePids k (terminate c k) :=
  ⟨terminate_nextPid c k,terminate_pid c k,usedSlots_restated (restated_terminate hc)⟩

theorem samePids_setState {k : Kernel} {c : Slot} {st : ProcState} (hc : (k.table c).state ≠ .unused)
    (h1 : st ≠ .unused) (h2 : st ≠ .running) : SamePids k (k.setState c st) := by
  refine ⟨rfl,?_,usedSlots_restated (restated_setState hc h1 h2)⟩
  intro i
  rw [setState_table]

theorem samePids_kill (pid : ℕ) (k : Kernel) : SamePids k (processKill pid k).2 := by
  unfold processKill
  cases hs : killSlot pid k with
  | none => exact SamePids.refl k
  | some i =>
    have hi := killSlot_spec hs
    exact samePids_terminate hi.2.1

theorem samePids_wake (p : Option Slot) (k : Kernel) : SamePids k (processWake p k) := by
  unfold processWake
  split
  · exact SamePids.refl k
  · split
    · rename_i i hb
      exact samePids_setState (by rw [hb]; decide) (by decide) (by decide)
    · exact SamePids.refl k

theorem samePids_wakeAllBlocked (k : Kernel) : SamePids k (processWakeAllBlocked k) := by
  refine ⟨rfl,?_,usedSlots_restated (restated_wakeAllBlocked k)⟩
  intro i
  unfold processWakeAllBlocked
  dsimp only
  split <;> rfl

theorem samePids_yieldPoint {k k₀ : Kernel} {call : KernelCall} (h : StacksOwned k)
    (hy : call.yieldPoint k = some k₀) : SamePids k k₀ := by
  cases call with
  | exit =>
    cases hy
    cases hc : k.current with
    | none => exact SamePids.refl k
    | some c => exact samePids_terminate (h.used c hc)
  | block =>
    cases hy
    cases hc : k.current with
    | none => exact SamePids.refl k
    | some c => exact samePids_setState (h.used c hc) (by decide) (by decide)
  | yield =>
    cases hy
    exact SamePids.refl k
  | _ => cases hy

theorem processYield_pid (K : KernelLayout) (k : Kernel) (i : Slot) :
    ((processYield K k).table i).pid = (k.table i).pid := by
  have h : (processYield K k).table = (schedNext (schedPoint k)).2.table := rfl
  rw [h,schedNext_snd,setState_table,released_table,schedPoint_table]

theorem processYield_nextPid (K : KernelLayout) (k : Kernel) : (processYield K k).nextPid = k.nextPid := by
  have h : (processYield K k).nextPid = (schedNext (schedPoint k)).2.nextPid := rfl
  have hreleased : ∀ k : Kernel, (released k).nextPid = k.nextPid := by
    intro k
    unfold released
    split
    · rfl
    · split <;> rfl
  have hsaved : (schedPoint k).nextPid = k.nextPid := by
    unfold schedPoint saveEsp
    split <;> rfl
  rw [h,schedNext_snd]
  exact (hreleased _).trans hsaved

theorem samePids_yield {k : Kernel} (h : StacksOwned k) (K : KernelLayout) : SamePids k (processYield K k) := by
  refine ⟨processYield_nextPid K k,processYield_pid K k,?_⟩
  ext i
  rw [mem_usedSlots,mem_usedSlots,processYield_state]
  by_cases hi : i = nextSlot k
  · rw [if_pos hi,hi]
    exact iff_of_true (by decide) h.nextSlot_used
  · rw [if_neg hi]
    split
    · rename_i hr
      rw [hr.2]
      decide
    · exact Iff.rfl

/-! ## Creation -/

theorem allocSlot_none {k : Kernel} : allocSlot k = none ↔ (usedSlots k).card = 16 := by
  have hfull : (usedSlots k).card = 16 ↔ usedSlots k = Finset.univ := by
    rw [← Finset.card_eq_iff_eq_univ,Fintype.card_fin]
  rw [hfull,Finset.eq_univ_iff_forall]
  unfold allocSlot
  rw [List.find?_eq_none]
  constructor
  · intro h i
    rw [mem_usedSlots]
    simpa using h i (List.mem_finRange i)
  · intro h i _
    have hi := mem_usedSlots.mp (h i)
    simpa using hi

section Insert
variable {k : Kernel} {i : Slot} {p : Proc}

theorem usedSlots_insert (n : ℕ) (hp : p.state = .ready) :
    usedSlots { k.setProc i p with nextPid := n } = insert i (usedSlots k) := by
  ext j
  rw [Finset.mem_insert,mem_usedSlots,mem_usedSlots]
  by_cases hj : j = i
  · subst hj
    simp [Kernel.setProc,hp]
  · simp [Kernel.setProc,hj]

/-- An unused slot filled under the next PID. -/
theorem PidsDistinct.insert (h : PidsDistinct k) (hi : (k.table i).state = .unused) (hp : p.state = .ready)
    (hpid : p.pid = k.nextPid+1) : PidsDistinct { k.setProc i p with nextPid := k.nextPid+1 } := by
  have hnot : i ∉ usedSlots k := fun hm => mem_usedSlots.mp hm hi
  have hused := usedSlots_insert (k := k) (i := i) (k.nextPid+1) hp
  have hself : (k.setProc i p).table i = p := by simp [Kernel.setProc]
  have hother : ∀ j ∈ usedSlots k, (k.setProc i p).table j = k.table j := by
    intro j hj
    have hne : j ≠ i := by
      rintro rfl
      exact hnot hj
    exact Function.update_of_ne hne p k.table
  constructor
  · rw [hused,Finset.card_insert_of_notMem hnot,← h.count]
  · intro j hj
    rw [hused] at hj
    dsimp only
    rcases Finset.mem_insert.mp hj with rfl | hj
    · rw [hself,hpid]
      omega
    · rw [hother j hj]
      exact h.positive j hj
  · intro j hj
    rw [hused] at hj
    dsimp only
    rcases Finset.mem_insert.mp hj with rfl | hj
    · rw [hself,hpid]
    · rw [hother j hj]
      exact (h.issued j hj).trans (Nat.le_succ _)
  · -- the new PID is larger than every PID issued before
    intro a ha b hb he
    rw [hused] at ha hb
    dsimp only at he
    rcases Finset.mem_insert.mp ha with hai | ha <;> rcases Finset.mem_insert.mp hb with hbi | hb
    · rw [hai,hbi]
    · rw [hai,hself,hother b hb,hpid] at he
      have := h.issued b hb
      omega
    · rw [hbi,hself,hother a ha,hpid] at he
      have := h.issued a ha
      omega
    · rw [hother a ha,hother b hb] at he
      exact h.distinct a ha b hb he

end Insert

/-- A creation fails and changes nothing, or takes an unused slot and the next PID. -/
theorem createProc_pids {k : Kernel} (h : PidsDistinct k) (isUser : Bool) (userEip userEsp pdPhys : ℕ) :
    (k.nextPid = 16 ∧ createProc isUser userEip userEsp pdPhys k = (none,k)) ∨
      (k.nextPid < 16 ∧ (createProc isUser userEip userEsp pdPhys k).1.isSome ∧
        (createProc isUser userEip userEsp pdPhys k).2.nextPid = k.nextPid+1 ∧
        PidsDistinct (createProc isUser userEip userEsp pdPhys k).2) := by
  unfold createProc
  cases ha : allocSlot k with
  | none => exact Or.inl ⟨h.count.trans (allocSlot_none.mp ha),rfl⟩
  | some i =>
    have hi := allocSlot_unused ha
    have hlt : k.nextPid < 16 := by
      refine lt_of_le_of_ne h.le fun he => ?_
      have hnone := allocSlot_none.mpr (h.count.symm.trans he)
      rw [ha] at hnone
      cases hnone
    have hpid : (k.nextPid+1) % 2^32 = k.nextPid+1 := Nat.mod_eq_of_lt (by omega)
    dsimp only
    rw [hpid]
    exact Or.inr ⟨hlt,rfl,rfl,h.insert hi rfl rfl⟩

theorem PidsDistinct.createProc {k : Kernel} (h : PidsDistinct k) (isUser : Bool) (userEip userEsp pdPhys : ℕ) :
    PidsDistinct (ProcessTable.createProc isUser userEip userEsp pdPhys k).2 := by
  rcases createProc_pids h isUser userEip userEsp pdPhys with ⟨_,he⟩ | ⟨_,_,_,hd⟩
  · rw [he]
    exact h
  · exact hd

/-! ## Runs -/

theorem PidsDistinct.apply {k : Kernel} (h : PidsDistinct k) (hs : StacksOwned k) (K : KernelLayout)
    (call : KernelCall) : PidsDistinct (call.apply K k) := by
  cases hy : call.yieldPoint k with
  | some k₀ =>
    have hr := restated_yieldPoint hs hy
    rw [apply_yieldPoint hy]
    exact (h.same (samePids_yieldPoint hs hy)).same (samePids_yield (hs.restate hr) K)
  | none =>
    cases call with
    | create => exact h.createProc _ _ _ _
    | createUser userEip userEsp pdPhys => exact h.createProc _ _ _ _
    | kill pid => exact h.same (samePids_kill pid k)
    | wake p => exact h.same (samePids_wake p k)
    | wakeAllBlocked => exact h.same (samePids_wakeAllBlocked k)
    | _ => cases hy

theorem PidsDistinct.run {k : Kernel} (h : PidsDistinct k) (hs : StacksOwned k) (K : KernelLayout)
    (calls : List KernelCall) : PidsDistinct (Scheduler.run K k calls) := by
  induction calls generalizing k with
  | nil => exact h
  | cons call calls ih => exact ih (h.apply hs K call) (hs.apply K call)

theorem pidsDistinct_processInit (K : KernelLayout) (mach : Machine) (old : Slot → Proc) :
    PidsDistinct (processInit K mach old) := by
  -- before the idle process is created no slot is in use
  have hempty : ∀ k : Kernel, (∀ i, (k.table i).state = .unused) → k.nextPid = 0 → PidsDistinct k := by
    intro k hk hn
    have hused : usedSlots k = ∅ := by
      apply Finset.eq_empty_of_forall_notMem
      intro i hi
      exact mem_usedSlots.mp hi (hk i)
    constructor
    · rw [hused,hn]
      rfl
    all_goals
      intro i hi
      rw [hused] at hi
      cases hi
  exact (hempty _ (fun _ => rfl) rfl).createProc _ _ _ _

/-- The slot found for a PID is the only one in use under it. -/
theorem PidsDistinct.kill {k : Kernel} (h : PidsDistinct k) (pid : ℕ) :
    ∃ i, ∀ j, j ≠ i → (processKill pid k).2.table j = k.table j ∧ ((k.table j).state ≠ .unused →
      (processKill pid k).1 = 0 → (k.table j).pid ≠ pid) := by
  unfold processKill
  cases hs : killSlot pid k with
  | none =>
    refine ⟨0,fun j _ => ⟨rfl,fun _ he => ?_⟩⟩
    cases he
  | some i =>
    have hi := killSlot_spec hs
    refine ⟨i,fun j hj => ⟨?_,fun hu _ hp => ?_⟩⟩
    · dsimp only
      rw [terminate_table,Function.update_of_ne hj]
    · exact hj (h.distinct j (mem_usedSlots.mpr hu) i (mem_usedSlots.mpr hi.2.1) (hp.trans hi.1.symm))

/-- What holds of the table between any two calls of a run. -/
structure WellFormed (k : Kernel) : Prop where
  single : ∀ i j, (k.table i).state = .running → (k.table j).state = .running → i = j
  running : ∀ i, (k.table i).state = .running → k.current = some i
  pids : ∀ i j, (k.table i).state ≠ .unused → (k.table j).state ≠ .unused → (k.table i).pid = (k.table j).pid → i = j
  nonzero : ∀ i, (k.table i).state ≠ .unused → (k.table i).pid ≠ 0

/-- In every run from boot at most the current slot is RUNNING, after each switch it is, and PIDs are distinct
and non-zero, so a kill changes one slot at most. -/
theorem table_invariant (K : KernelLayout) (mach : Machine) (old : Slot → Proc) (calls : List KernelCall) :
    WellFormed (Scheduler.run K (processInit K mach old) calls) ∧
    (∀ call k₀, call.yieldPoint (Scheduler.run K (processInit K mach old) calls) = some k₀ → ∀ i,
      ((Scheduler.run K (processInit K mach old) (calls++[call])).table i).state = .running ↔
        (Scheduler.run K (processInit K mach old) (calls++[call])).current = some i) ∧
    ∀ pid, ∃ i, ∀ j, j ≠ i → (Scheduler.run K (processInit K mach old) (calls++[.kill pid])).table j =
      (Scheduler.run K (processInit K mach old) calls).table j := by
  have hs := (stacksOwned_processInit K mach old).run K calls
  have hp := (pidsDistinct_processInit K mach old).run (stacksOwned_processInit K mach old) K calls
  refine ⟨⟨?_,hs.running,?_,?_⟩,?_,?_⟩
  · intro i j hi hj
    exact Option.some.inj ((hs.running i hi).symm.trans (hs.running j hj))
  · intro i j hi hj
    exact hp.distinct i (mem_usedSlots.mpr hi) j (mem_usedSlots.mpr hj)
  · intro i hi
    exact (hp.positive i (mem_usedSlots.mpr hi)).ne'
  · intro call k₀ hy i
    have hafter := (hs.apply K call).running i
    rw [run_snoc]
    refine ⟨hafter,?_⟩
    rw [apply_yieldPoint hy,processYield_current,processYield_state]
    intro he
    rw [if_pos (Option.some.inj he).symm]
  · intro pid
    obtain ⟨i,hi⟩ := hp.kill pid
    refine ⟨i,fun j hj => ?_⟩
    rw [run_snoc]
    exact (hi j hj).1

/-! ## Slots are used once -/

/-- Whether a call creates a process. -/
def creates (k : Kernel) : KernelCall → Bool
  | .create => (processCreate k).1.isSome
  | .createUser userEip userEsp pdPhys => (processCreateUser userEip userEsp pdPhys k).1.isSome
  | _ => false

/-- Number of processes created in a run. -/
def created (K : KernelLayout) : Kernel → List KernelCall → ℕ
  | _,[] => 0
  | k,call :: calls => (if creates k call then 1 else 0) + created K (call.apply K k) calls

theorem apply_nextPid {k : Kernel} (h : PidsDistinct k) (hs : StacksOwned k) (K : KernelLayout) (call : KernelCall) :
    (call.apply K k).nextPid = k.nextPid + if creates k call then 1 else 0 := by
  have hcreate : ∀ isUser userEip userEsp pdPhys, (createProc isUser userEip userEsp pdPhys k).2.nextPid =
      k.nextPid + if (createProc isUser userEip userEsp pdPhys k).1.isSome then 1 else 0 := by
    intro isUser userEip userEsp pdPhys
    rcases createProc_pids h isUser userEip userEsp pdPhys with ⟨_,he⟩ | ⟨_,hsome,hn,_⟩
    · rw [he]
      rfl
    · rw [hn,if_pos hsome]
  cases hy : call.yieldPoint k with
  | some k₀ =>
    have hnone : creates k call = false := by
      cases call <;> first | rfl | cases hy
    rw [apply_yieldPoint hy,processYield_nextPid,(samePids_yieldPoint hs hy).nextPid,hnone]
    rfl
  | none =>
    cases call with
    | create => exact hcreate _ _ _ _
    | createUser userEip userEsp pdPhys => exact hcreate _ _ _ _
    | kill pid => exact (samePids_kill pid k).nextPid
    | wake p => exact (samePids_wake p k).nextPid
    | wakeAllBlocked => exact (samePids_wakeAllBlocked k).nextPid
    | _ => cases hy

theorem run_nextPid {k : Kernel} (h : PidsDistinct k) (hs : StacksOwned k) (K : KernelLayout)
    (calls : List KernelCall) : (Scheduler.run K k calls).nextPid = k.nextPid + created K k calls := by
  induction calls generalizing k with
  | nil => rfl
  | cons call calls ih =>
    have hnext := ih (h.apply hs K call) (hs.apply K call)
    rw [apply_nextPid h hs K call] at hnext
    unfold created
    rw [← Nat.add_assoc]
    exact hnext

theorem createProc_none_iff {k : Kernel} (h : PidsDistinct k) (isUser : Bool) (userEip userEsp pdPhys : ℕ) :
    (createProc isUser userEip userEsp pdPhys k).1 = none ↔ k.nextPid = 16 := by
  rcases createProc_pids h isUser userEip userEsp pdPhys with ⟨hn,he⟩ | ⟨hlt,hsome,_,_⟩
  · rw [he]
    exact iff_of_true rfl hn
  · refine iff_of_false (fun hnone => ?_) hlt.ne
    rw [hnone] at hsome
    cases hsome

theorem full_iff {k : Kernel} (h : PidsDistinct k) : k.nextPid = 16 ↔ ∀ i, (k.table i).state ≠ .unused := by
  rw [h.count,← Fintype.card_fin 16,Finset.card_eq_iff_eq_univ,Finset.eq_univ_iff_forall]
  simp only [mem_usedSlots]

/-- After any run the two creating functions fail exactly when no slot is UNUSED, which is exactly when
sixteen processes were created since boot: the idle process and terminated ones count. -/
theorem creation_fails_iff (K : KernelLayout) (mach : Machine) (old : Slot → Proc) (calls : List KernelCall) :
    ((processCreate (Scheduler.run K (processInit K mach old) calls)).1 = none ↔
      1 + created K (processInit K mach old) calls = 16) ∧
    (∀ userEip userEsp pdPhys,
      (processCreateUser userEip userEsp pdPhys (Scheduler.run K (processInit K mach old) calls)).1 = none ↔
        1 + created K (processInit K mach old) calls = 16) ∧
    (1 + created K (processInit K mach old) calls = 16 ↔
      ∀ i, ((Scheduler.run K (processInit K mach old) calls).table i).state ≠ .unused) := by
  have hinit := pidsDistinct_processInit K mach old
  have hstacks := stacksOwned_processInit K mach old
  have hrun := hinit.run hstacks K calls
  have hcount := run_nextPid hinit hstacks K calls
  have hone : (processInit K mach old).nextPid = 1 := rfl
  rw [← hone,← hcount]
  refine ⟨createProc_none_iff hrun _ _ _ _,?_,full_iff hrun⟩
  intro userEip userEsp pdPhys
  exact createProc_none_iff hrun _ _ _ _

/-- Fifteen processes next to idle, one of them killed: the table is full with fifteen alive. -/
theorem killed_slot_lost :
    (processCreate (Scheduler.run sampleLayout Exec.bootedKernel (List.replicate 15 .create++[.kill 2]))).1 = none ∧
      Zombie (Scheduler.run sampleLayout Exec.bootedKernel (List.replicate 15 .create++[.kill 2])) 1 :=
  ⟨rfl,rfl⟩

end VesperOS.TableInvariant
