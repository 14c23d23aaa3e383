import VesperOS.Process.SwitchSteps

/-! # Contexts that are left

A context that `process_yield` has left stays resumable while no other switch starts in the
middle of a switch. The switch in progress ends, and then waking and yielding bring it
back. The boot context has no slot to come back from.
-/
namespace VesperOS.InterruptedSwitch
open Paging ProcessTable Scheduler SpaceLifecycle ContextSwitch SwitchSteps

def Terminated (ctx : Option Slot) (k : Kernel) : Prop := ∃ c, ctx = some c ∧ Zombie k c

/-- The pointer `sp` of a context stands in a slot, and some further steps bring the slot back with this pointer. -/
def Resumable (K : KernelLayout) (sp : StackPtr) (s : Cpu) : Prop :=
  ∃ i, (s.kernel.table i).esp = sp ∧ ∃ t, Reached K s t ∧ t.kernel.current = some i ∧ t.kernel.esp = sp.popFrame

/-! ## A context that waits -/

/-- Slot `c` is left, with the pointer to a frame of its stack in it. -/
structure Waiting (k : Kernel) (c : Slot) (depth : ℕ) : Prop where
  left : k.esp.owner ≠ some c
  saved : (k.table c).esp = ⟨some c,depth⟩
  used : (k.table c).state ≠ .unused
  live : ¬ Zombie k c

def Back (k : Kernel) (c : Slot) (depth : ℕ) : Prop := k.current = some c ∧ k.esp = (StackPtr.mk (some c) depth).popFrame

theorem Waiting.keep {k k' : Kernel} {c : Slot} {depth : ℕ} (h : Waiting k c depth) (hesp : k'.esp.owner = k.esp.owner)
    (hsaved : (k'.table c).esp = (k.table c).esp)
    (hstate : (k'.table c).state = (k.table c).state ∨ Runnable (k'.table c).state) : Waiting k' c depth := by
  refine ⟨hesp ▸ h.left,hsaved.trans h.saved,?_,?_⟩
  · rcases hstate with he | hr
    · exact he ▸ h.used
    · intro hu
      rw [hu] at hr
      exact absurd hr (by decide)
  · rcases hstate with he | hr
    · unfold Zombie
      exact he ▸ h.live
    · intro hz
      unfold Zombie at hz
      rw [hz] at hr
      exact absurd hr (by decide)

theorem Waiting.setState {k : Kernel} {c : Slot} {depth : ℕ} (h : Waiting k c depth) (i : Slot) {st : ProcState}
    (hst : Runnable st) : Waiting (k.setState i st) c depth := by
  refine h.keep rfl (by rw [setState_table]) ?_
  rw [setState_table]
  dsimp only
  split
  · exact Or.inr hst
  · exact Or.inl rfl

/-- The statements of a switch leave a waiting context alone until it is switched to. -/
theorem waiting_exec {K : KernelLayout} {s s' : Cpu} (h : Inv s) {a : Act} {rest : List Act} (ha : s.acts = a :: rest)
    (he : s.exec K a.point = some s') {c : Slot} {depth : ℕ} (hw : Waiting s.kernel c depth) :
    Waiting s'.kernel c depth ∨ Back s'.kernel c depth := by
  have hstage := h.stage a rest ha
  have hready : Runnable .ready := Or.inl rfl
  have hrunning : Runnable .running := Or.inr rfl
  cases hp : a.point with
  | save =>
    rw [hp] at hstage he
    obtain rfl := Option.some.inj he
    have hown : StacksOwned s.kernel := hstage
    have hne : s.kernel.current ≠ some c := fun hc => hw.left (hown.onStack.trans hc)
    left
    refine hw.keep (congrArg StackPtr.owner (saveEsp_esp s.kernel)) ?_ (Or.inl ?_)
    · change ((saveEsp s.kernel).table c).esp = _
      rw [saveEsp_table]
      exact if_neg hne
    · change ((saveEsp s.kernel).table c).state = _
      rw [saveEsp_table]
  | sched =>
    rw [hp] at he
    obtain rfl := Option.some.inj he
    left
    cases hc : s.kernel.current with
    | none => exact hw
    | some d =>
      dsimp only [Cpu.goOn]
      split
      · exact hw.setState d hready
      · exact hw
  | bootstrap left =>
    rw [hp] at he
    left
    cases left with
    | nil =>
      obtain rfl := Option.some.inj he
      exact hw.setState idleSlot hrunning
    | cons i left =>
      obtain rfl := Option.some.inj he
      split
      · exact hw.setState i hrunning
      · exact hw
  | roundRobin left =>
    rw [hp] at he
    left
    cases left with
    | nil =>
      obtain rfl := Option.some.inj he
      exact hw.setState idleSlot hrunning
    | cons i left =>
      obtain rfl := Option.some.inj he
      split
      · exact hw.setState i hrunning
      · exact hw
  | assign n =>
    rw [hp] at he
    obtain rfl := Option.some.inj he
    exact Or.inl (hw.keep rfl rfl (Or.inl rfl))
  | beforeSwitch n =>
    rw [hp] at he
    obtain rfl := Option.some.inj he
    exact Or.inl (hw.keep rfl rfl (Or.inl rfl))
  | load n =>
    rw [hp] at hstage he
    obtain rfl := Option.some.inj he
    obtain ⟨hk,-,hcur⟩ := hstage
    by_cases hn : n = c
    · subst hn
      right
      exact ⟨hcur,congrArg StackPtr.popFrame hw.saved⟩
    · left
      refine ⟨fun ho => hn ?_,hw.saved,hw.used,hw.live⟩
      exact Option.some.inj ((hk.saved n hk.used).symm.trans ho)
  | away =>
    rw [hp] at he
    cases he

/-! ## A switch comes to its end -/

/-- The innermost call, made by `x`, is at a point with its frame on top of the stack; `pend` are the calls without it. -/
structure At (s : Cpu) (sp : StackPtr) (x : Option Slot) (pend : Option Slot → List Act) (p : Point) : Prop where
  esp : s.kernel.esp = sp
  pending : s.pending = Function.update pend sp.owner (⟨sp.depth,x,p⟩ :: pend sp.owner)

section Frames
variable {K : KernelLayout} {s : Cpu} {sp : StackPtr} {x : Option Slot} {pend : Option Slot → List Act} {p : Point}

theorem At.acts (h : At s sp x pend p) : s.acts = ⟨sp.depth,x,p⟩ :: pend sp.owner := by
  unfold Cpu.acts
  rw [h.esp,h.pending,Function.update_self]

theorem At.goOn (h : At s sp x pend p) (q : Point) {k' : Kernel} (hesp : k'.esp = s.kernel.esp) :
    At (s.goOn q k') sp x pend q := by
  refine ⟨hesp.trans h.esp,?_⟩
  rw [goOn_pending h.acts,h.pending,h.esp,Function.update_idem]

theorem At.step (h : At s sp x pend p) : step K s .advance = s.exec K p := by
  unfold SwitchSteps.step
  dsimp only
  rw [h.acts]
  dsimp only
  rw [if_pos (congrArg StackPtr.depth h.esp).symm]

theorem At.reached {s' : Cpu} (h : At s sp x pend p) (he : s.exec K p = some s') : Reached K s s' :=
  @Reached.step _ _ _ _ .advance .start trivial (h.step.trans he)

end Frames

/-- How many statements are left at most. -/
def remaining : Point → ℕ
  | .save => 28
  | .sched => 27
  | .bootstrap left | .roundRobin left => 10+left.length
  | .assign _ => 3
  | .beforeSwitch _ => 2
  | .load _ => 1
  | .away => 0

theorem after_length (c : Slot) : (after c).length = 16 := by
  rw [after,List.length_map,List.length_finRange]

theorem exec_some (K : KernelLayout) (s : Cpu) {p : Point} (hp : p ≠ .away) : ∃ s', s.exec K p = some s' := by
  cases p with
  | bootstrap left => cases left <;> exact ⟨_,rfl⟩
  | roundRobin left => cases left <;> exact ⟨_,rfl⟩
  | away => exact absurd rfl hp
  | _ => exact ⟨_,rfl⟩

/-- A statement loads the next stack pointer, or goes on with fewer statements left. -/
theorem exec_cases {K : KernelLayout} {s s' : Cpu} {p : Point} (he : s.exec K p = some s') :
    (∃ n, p = .load n ∧ s' = (s.goOn .away s.kernel).switchTo (s.kernel.table n).esp) ∨
    ∃ p' k', s' = s.goOn p' k' ∧ k'.esp = s.kernel.esp ∧ p' ≠ .save ∧ remaining p' < remaining p := by
  cases p with
  | save =>
    obtain rfl := Option.some.inj he
    exact Or.inr ⟨_,_,rfl,saveEsp_esp s.kernel,Point.noConfusion,by simp only [remaining]; omega⟩
  | sched =>
    obtain rfl := Option.some.inj he
    right
    cases s.kernel.current with
    | none => exact ⟨_,_,rfl,rfl,Point.noConfusion,by simp only [remaining,List.length_finRange]; omega⟩
    | some c =>
      refine ⟨_,_,rfl,?_,Point.noConfusion,by simp only [remaining,after_length]; omega⟩
      split <;> rfl
  | bootstrap left =>
    right
    cases left with
    | nil =>
      obtain rfl := Option.some.inj he
      exact ⟨_,_,rfl,rfl,Point.noConfusion,by simp only [remaining]; omega⟩
    | cons i left =>
      obtain rfl := Option.some.inj he
      split
      · exact ⟨_,_,rfl,rfl,Point.noConfusion,by simp only [remaining]; omega⟩
      · exact ⟨_,_,rfl,rfl,Point.noConfusion,by simp only [remaining,List.length_cons]; omega⟩
  | roundRobin left =>
    right
    cases left with
    | nil =>
      obtain rfl := Option.some.inj he
      exact ⟨_,_,rfl,rfl,Point.noConfusion,by simp only [remaining]; omega⟩
    | cons i left =>
      obtain rfl := Option.some.inj he
      split
      · exact ⟨_,_,rfl,rfl,Point.noConfusion,by simp only [remaining]; omega⟩
      · exact ⟨_,_,rfl,rfl,Point.noConfusion,by simp only [remaining,List.length_cons]; omega⟩
  | assign n =>
    obtain rfl := Option.some.inj he
    exact Or.inr ⟨_,_,rfl,rfl,Point.noConfusion,by simp only [remaining]; omega⟩
  | beforeSwitch n =>
    obtain rfl := Option.some.inj he
    exact Or.inr ⟨_,_,rfl,rfl,Point.noConfusion,by simp only [remaining]; omega⟩
  | load n =>
    obtain rfl := Option.some.inj he
    exact Or.inl ⟨n,rfl,rfl⟩
  | away => cases he

/-- A switch in progress that is not disturbed comes to its end, with or without a waiting context. -/
theorem finish {K : KernelLayout} {c : Slot} {depth : ℕ} (n : ℕ) {s : Cpu} (h : Inv s) {sp : StackPtr}
    {x : Option Slot} {pend : Option Slot → List Act} {p : Point} (hat : At s sp x pend p) (hn : remaining p < n)
    (hw : Waiting s.kernel c depth) : ∃ t, Reached K s t ∧ (Back t.kernel c depth ∨ (Waiting t.kernel c depth ∧ ¬ Switching t)) := by
  induction n generalizing s p with
  | zero => cases hn
  | succ n ih =>
    have hp : p ≠ .away := by
      rintro rfl
      exact h.stage _ _ hat.acts
    obtain ⟨s',he⟩ := exec_some K s hp
    have hr := hat.reached he
    rcases waiting_exec h hat.acts he hw with hnext | hback
    · rcases exec_cases he with ⟨m,hm,rfl⟩ | ⟨p',k',rfl,hesp,_,hlt⟩
      · exact ⟨_,hr,Or.inr ⟨hnext,(h.load hat.acts hm).2⟩⟩
      · have hd : sp.depth = s.kernel.esp.depth := (congrArg StackPtr.depth hat.esp).symm
        obtain ⟨t,ht,hend⟩ := ih (h.exec K hat.acts hd he) (hat.goOn p' hesp) (by omega) hnext
        exact ⟨t,hr.trans ht,hend⟩
    · exact ⟨s',hr,Or.inl hback⟩

/-! ## A switch without interruption -/

section Sched
variable (K : KernelLayout) {sp : StackPtr} {x : Option Slot} {pend : Option Slot → List Act}

theorem bootstrap_runs (left : List Slot) {s : Cpu} (h : At s sp x pend (.bootstrap left)) : ∃ i t, Reached K s t ∧
    At t sp x pend (.assign i) ∧ t.kernel = s.kernel.setState i .running ∧
      i = (firstSlot s.kernel (fun st => st = .ready ∨ st = .running) left).getD idleSlot := by
  induction left generalizing s with
  | nil => exact ⟨idleSlot,_,h.reached rfl,h.goOn _ rfl,rfl,rfl⟩
  | cons i left ih =>
    by_cases hi : Runnable (s.kernel.table i).state
    · have he : s.exec K (.bootstrap (i :: left)) = some (s.goOn (.assign i) (s.kernel.setState i .running)) := by
        simp only [Cpu.exec,if_pos hi]
      refine ⟨i,_,h.reached he,h.goOn _ rfl,rfl,?_⟩
      rw [firstSlot,List.find?_cons_of_pos (by simpa [Runnable] using hi)]
      rfl
    · have he : s.exec K (.bootstrap (i :: left)) = some (s.goOn (.bootstrap left) s.kernel) := by
        simp only [Cpu.exec,if_neg hi]
      obtain ⟨j,t,hr,hat,hk,hj⟩ := ih (h.goOn _ rfl)
      refine ⟨j,t,(h.reached he).trans hr,hat,hk,?_⟩
      rw [firstSlot,List.find?_cons_of_neg (by simpa [Runnable] using hi)]
      exact hj

theorem roundRobin_runs (left : List Slot) {s : Cpu} (h : At s sp x pend (.roundRobin left)) : ∃ i t, Reached K s t ∧
    At t sp x pend (.assign i) ∧ t.kernel = s.kernel.setState i .running ∧
      i = (firstSlot s.kernel (fun st => st = .ready) left).getD idleSlot := by
  induction left generalizing s with
  | nil => exact ⟨idleSlot,_,h.reached rfl,h.goOn _ rfl,rfl,rfl⟩
  | cons i left ih =>
    by_cases hi : (s.kernel.table i).state = .ready
    · have he : s.exec K (.roundRobin (i :: left)) = some (s.goOn (.assign i) (s.kernel.setState i .running)) := by
        simp only [Cpu.exec,if_pos hi]
      refine ⟨i,_,h.reached he,h.goOn _ rfl,rfl,?_⟩
      rw [firstSlot,List.find?_cons_of_pos (by simpa using hi)]
      rfl
    · have he : s.exec K (.roundRobin (i :: left)) = some (s.goOn (.roundRobin left) s.kernel) := by
        simp only [Cpu.exec,if_neg hi]
      obtain ⟨j,t,hr,hat,hk,hj⟩ := ih (h.goOn _ rfl)
      refine ⟨j,t,(h.reached he).trans hr,hat,hk,?_⟩
      rw [firstSlot,List.find?_cons_of_neg (by simpa using hi)]
      exact hj

/-- The steps from `sched_next` on are the function `schedNext`. -/
theorem sched_runs {s : Cpu} (h : At s sp x pend .sched) : ∃ t, Reached K s t ∧
    At t sp x pend (.assign (schedNext s.kernel).1) ∧ t.kernel = (schedNext s.kernel).2 := by
  cases hc : s.kernel.current with
  | none =>
    have hrel := released_none hc
    have he : s.exec K .sched = some (s.goOn (.bootstrap (List.finRange 16)) s.kernel) := by
      simp only [Cpu.exec,hc]
    obtain ⟨i,t,hr,hat,hk,hi⟩ := bootstrap_runs K _ (h.goOn (.bootstrap (List.finRange 16)) rfl)
    have hnext : (schedNext s.kernel).1 = i := by
      rw [hi]
      unfold schedNext
      rw [hc]
      dsimp only
      change _ = (firstSlot s.kernel (fun st => st = .ready ∨ st = .running) (List.finRange 16)).getD idleSlot
      cases firstSlot s.kernel (fun st => st = .ready ∨ st = .running) (List.finRange 16) <;> rfl
    refine ⟨t,(h.reached he).trans hr,hnext ▸ hat,?_⟩
    rw [schedNext_snd,hnext,hrel,hk]
    rfl
  | some c =>
    have hrel := released_some hc
    have hesp : (released s.kernel).esp = s.kernel.esp := by
      rw [hrel]
      split <;> rfl
    have he : s.exec K .sched = some (s.goOn (.roundRobin (after c)) (released s.kernel)) := by
      simp only [Cpu.exec,hc,hrel]
    obtain ⟨i,t,hr,hat,hk,hi⟩ := roundRobin_runs K _ (h.goOn (.roundRobin (after c)) hesp)
    have hnext : (schedNext s.kernel).1 = i := (schedNext_some hc).trans hi.symm
    refine ⟨t,(h.reached he).trans hr,hnext ▸ hat,?_⟩
    rw [schedNext_snd,hnext,hk]
    rfl

theorem at_call (s : Cpu) : At (s.call K .yield) s.kernel.esp.pushFrame s.kernel.current s.pending .save := ⟨rfl,rfl⟩

/-- A call of `process_yield` up to the write of `current_process`. -/
theorem chosen_runs {s : Cpu} (hs : ¬ Switching s) : ∃ t, Reached K s t ∧
    At t s.kernel.esp.pushFrame s.kernel.current s.pending (.assign (nextSlot s.kernel)) ∧
      t.kernel = (schedNext (schedPoint s.kernel)).2 := by
  have hcall : Reached K s (s.call K .yield) :=
    @Reached.step _ _ _ _ (.call .yield) .start (fun hsw => absurd hsw hs) rfl
  have hsave := at_call K s
  obtain ⟨t,hr,hat,hk⟩ := sched_runs K (hsave.goOn .sched (saveEsp_esp _))
  exact ⟨t,(hcall.trans (hsave.reached rfl)).trans hr,hat,hk⟩

/-- Without interruption the steps of a call are the function `processYield`, and the call stays on the stack that
was left. -/
theorem yield_runs {s : Cpu} (h : Inv s) (hs : ¬ Switching s) : ∃ t, Reached K s t ∧
    t.kernel = processYield K s.kernel ∧ ¬ Switching t ∧ (t.kernel.esp.owner ≠ s.kernel.esp.owner →
      t.pending s.kernel.esp.owner = ⟨s.kernel.esp.depth+5,s.kernel.current,.away⟩ :: s.acts) := by
  obtain ⟨t₁,hr₁,hat₁,hk₁⟩ := chosen_runs K hs
  let n := nextSlot s.kernel
  let t₂ := t₁.goOn (.beforeSwitch n) { t₁.kernel with current := some n }
  let t₃ := t₂.goOn (.load n) (processBeforeSwitch K n t₂.kernel)
  have hat₂ : At t₂ _ _ _ (.beforeSwitch n) := hat₁.goOn _ rfl
  have hat₃ : At t₃ _ _ _ (.load n) := hat₂.goOn _ rfl
  have hr₃ : Reached K s t₃ := (hr₁.trans (hat₁.reached rfl)).trans (hat₂.reached rfl)
  refine ⟨_,hr₃.trans (hat₃.reached rfl),?_,((hr₃.inv h).load hat₃.acts rfl).2,fun hne => ?_⟩
  · change { processBeforeSwitch K n { t₁.kernel with current := some n } with
      esp := (t₁.kernel.table n).esp.popFrame } = _
    rw [hk₁]
    rfl
  · have howner : s.kernel.esp.owner ≠ (t₃.kernel.table n).esp.owner := Ne.symm hne
    change Function.update _ (t₃.kernel.table n).esp.owner _ _ = _
    rw [Function.update_of_ne howner,goOn_pending hat₃.acts,hat₃.esp]
    exact Function.update_self _ _ _

theorem yields_run (m : ℕ) {s : Cpu} (h : Inv s) (hs : ¬ Switching s) : ∃ t, Reached K s t ∧
    t.kernel = Scheduler.run K s.kernel (List.replicate m .yield) ∧ ¬ Switching t := by
  induction m generalizing s with
  | zero => exact ⟨s,.start,rfl,hs⟩
  | succ m ih =>
    obtain ⟨t,hr,hk,ht,-⟩ := yield_runs K h hs
    obtain ⟨u,hr',hk',hu⟩ := ih (hr.inv h) ht
    refine ⟨u,hr.trans hr',?_,hu⟩
    rw [hk',hk]
    rfl

end Sched

/-! ## Every context comes back -/

/-- A waiting context is READY or BLOCKED: waking and yielding bring it back. -/
theorem back_of_settled {K : KernelLayout} {s : Cpu} (h : Inv s) (hs : ¬ Switching s) {c : Slot} {depth : ℕ}
    (hw : Waiting s.kernel c depth) : ∃ t, Reached K s t ∧ Back t.kernel c depth := by
  have hown := h.owned hs
  let s₁ := s.call K .wakeAllBlocked
  have hwake : Reached K s s₁ := @Reached.step _ _ _ _ (.call .wakeAllBlocked) .start (fun _ => trivial) rfl
  have hr₁ : Restated s.kernel s₁.kernel := restated_wakeAllBlocked s.kernel
  have hacts : s₁.acts = s.acts := rfl
  have hs₁ : ¬ Switching s₁ := fun ⟨a,rest,ha,hne⟩ => hs ⟨a,rest,ha,hne⟩
  have hready : (s₁.kernel.table c).state = .ready := by
    have hrun : (s.kernel.table c).state ≠ .running :=
      fun hr => hw.left (hown.onStack.trans (hown.running c hr))
    have hlive := hw.live
    unfold Zombie at hlive
    change ((processWakeAllBlocked s.kernel).table c).state = _
    unfold processWakeAllBlocked
    dsimp only
    cases hst : (s.kernel.table c).state with
    | unused => exact absurd hst hw.used
    | ready => simp [hst]
    | running => exact absurd hst hrun
    | blocked => simp
    | zombie => exact absurd hst hlive
  have hsaved : (s₁.kernel.table c).esp = ⟨some c,depth⟩ := (hr₁.saved c).trans hw.saved
  have hcur : s₁.kernel.current ≠ some c := by
    rw [hr₁.current]
    exact fun hc => hw.left (hown.onStack.trans hc)
  -- the first yield may be the one of the boot context
  obtain ⟨s₂,hyield,hk₂,hs₂,-⟩ := yield_runs K (hwake.inv h) hs₁
  have hkeep : (s₂.kernel.table c).esp = ⟨some c,depth⟩ := by
    rw [hk₂,processYield_saved,if_neg hcur]
    exact hsaved
  by_cases hpick : nextSlot s₁.kernel = c
  · refine ⟨s₂,hwake.trans hyield,?_,?_⟩
    · rw [hk₂,processYield_current,hpick]
    · rw [hk₂] at hkeep ⊢
      rw [processYield_esp,hpick,hkeep]
  · have hstate : (s₂.kernel.table c).state = .ready := by
      rw [hk₂,processYield_state,if_neg (Ne.symm hpick),if_neg fun hc => hcur hc.1]
      exact hready
    have hcur₂ : s₂.kernel.current = some (nextSlot s₁.kernel) := by
      rw [hk₂]
      rfl
    obtain ⟨m,h1,h2⟩ := resume_ready K 16 hcur₂ hpick hstate (c-nextSlot s₁.kernel-1).isLt
    obtain ⟨t,hr,hk,_⟩ := yields_run K m ((hwake.trans hyield).inv h) hs₂
    refine ⟨t,(hwake.trans hyield).trans hr,?_,?_⟩
    · rw [hk]
      exact h1
    · rw [hk]
      exact h2.trans (congrArg StackPtr.popFrame hkeep)

/-- A waiting context comes back from any point of another switch. -/
theorem back_of_waiting {K : KernelLayout} {s : Cpu} (h : Inv s) {c : Slot} {depth : ℕ}
    (hw : Waiting s.kernel c depth) : ∃ t, Reached K s t ∧ Back t.kernel c depth := by
  by_cases hs : Switching s
  · obtain ⟨a,rest,ha,hne⟩ := hs
    -- the interrupt handler returns first
    let s₁ : Cpu := { s with kernel := { s.kernel with esp := ⟨s.kernel.esp.owner,a.depth⟩ } }
    have hstep : step K s (.code a.depth) = some s₁ := by
      unfold step
      dsimp only
      rw [if_pos]
      intro b hb
      rw [ha] at hb
      cases hb
      exact le_refl _
    have hr : Reached K s s₁ := @Reached.step _ _ _ _ (.code a.depth) .start trivial hstep
    have hat : At s₁ ⟨s.kernel.esp.owner,a.depth⟩ a.called (Function.update s.pending s.kernel.esp.owner rest) a.point := by
      refine ⟨rfl,?_⟩
      rw [Function.update_self,Function.update_idem]
      exact (Function.update_eq_self_iff.mpr ha.symm).symm
    obtain ⟨t,hr',hend⟩ := finish (K := K) _ (hr.inv h) hat (Nat.lt_succ_self _) ⟨hw.left,hw.saved,hw.used,hw.live⟩
    rcases hend with hback | ⟨hwait,hsettled⟩
    · exact ⟨t,hr.trans hr',hback⟩
    · obtain ⟨u,hr'',hback⟩ := back_of_settled (K := K) ((hr.trans hr').inv h) hsettled hwait
      exact ⟨u,(hr.trans hr').trans hr'',hback⟩
  · exact back_of_settled h hs hw

/-! ## The boot context does not -/

/-- The stack that runs stays one of a slot. -/
theorem owner_step {K : KernelLayout} {s s' : Cpu} (h : Inv s) (hs : s.kernel.esp.owner ≠ none) {mv : Move}
    (hu : Undisturbed s mv) (hstep : step K s mv = some s') : s'.kernel.esp.owner ≠ none := by
  cases mv with
  | code depth =>
    unfold step at hstep
    dsimp only at hstep
    split at hstep
    · obtain rfl := Option.some.inj hstep
      exact hs
    · cases hstep
  | call call =>
    obtain rfl := Option.some.inj hstep
    unfold Cpu.call
    cases hy : call.yieldPoint s.kernel with
    | none =>
      dsimp only
      rw [(@apply_stays K s.kernel call hy).2]
      exact hs
    | some k₀ =>
      by_cases hsw : Switching s
      · rw [wakes_yieldPoint (hu hsw)] at hy
        cases hy
      · change k₀.esp.owner ≠ none
        rw [(restated_yieldPoint (h.owned hsw) hy).esp]
        exact hs
  | advance =>
    unfold step at hstep
    dsimp only at hstep
    cases ha : s.acts with
    | nil =>
      rw [ha] at hstep
      cases hstep
    | cons a rest =>
      rw [ha] at hstep
      dsimp only at hstep
      split at hstep
      · rcases exec_cases hstep with ⟨n,hp,rfl⟩ | ⟨p',k',rfl,hesp,_,_⟩
        · have hstage := h.stage a rest ha
          rw [hp] at hstage
          change (s.kernel.table n).esp.owner ≠ none
          rw [hstage.1.saved n hstage.1.used]
          exact Option.some_ne_none n
        · change k'.esp.owner ≠ none
          rw [hesp]
          exact hs
      · cases hstep

theorem owner_reached {K : KernelLayout} {s t : Cpu} (hr : Reached K s t) (h : Inv s)
    (hs : s.kernel.esp.owner ≠ none) : t.kernel.esp.owner ≠ none := by
  induction hr with
  | start => exact hs
  | step hr hu hstep ih => exact owner_step (hr.inv h) ih hu hstep

/-! ## Every run from boot -/

/-- In every run from boot whose switches are not disturbed, a context that called `process_yield`, was left and is not
terminated can be resumed exactly when `current_process` was not NULL at its call. -/
theorem context_kept_iff (K : KernelLayout) (mach : Machine) (old : Slot → Proc) {s : Cpu}
    (hr : Reached K (boot K mach old) s) {x : Option Slot} {a : Act} {rest : List Act} (hcall : s.pending x = a :: rest)
    (hleft : s.kernel.esp.owner ≠ x) (hlive : ¬ Terminated x s.kernel) :
    Resumable K ⟨x,a.depth⟩ s ↔ a.called ≠ none := by
  have h := hr.inv (inv_boot K mach old)
  have hcalled : a.called = x := h.called x a (hcall ▸ List.mem_cons_self)
  rw [hcalled]
  constructor
  · rintro ⟨i,_,t,ht,_,hesp⟩ rfl
    apply owner_reached ht h hleft
    rw [hesp]
    rfl
  · intro hx
    obtain ⟨c,rfl⟩ := Option.ne_none_iff_exists'.mp hx
    have hsaved := (h.parked (some c) (Ne.symm hleft) a rest hcall).2 c rfl
    have hused : (s.kernel.table c).state ≠ .unused := by
      intro hu
      rw [h.fresh c hu] at hcall
      cases hcall
    obtain ⟨t,ht,hcur,hesp⟩ := back_of_waiting (K := K) h ⟨hleft,hsaved,hused,fun hz => hlive ⟨c,rfl,hz⟩⟩
    exact ⟨c,hsaved,t,ht,hcur,hesp⟩

/-! ## Contexts that are kept, and contexts that are lost -/

def bootedCpu : Cpu := boot sampleLayout bootedSystem.mach fun _ => ⟨⟨none,0⟩,0,.unused,0,false,0,0⟩

/-- `run` in the shell: a process is created, and the shell yields. -/
theorem shell_yields : ∃ t, Reached sampleLayout bootedCpu t ∧ ¬ Switching t ∧
    t.kernel = Scheduler.run sampleLayout Exec.bootedKernel [.create,.yield] ∧ t.pending none = [⟨5,none,.away⟩] := by
  have hboot : ¬ Switching bootedCpu := fun ⟨_,_,ha,_⟩ => by cases ha
  have hcreate : Reached sampleLayout bootedCpu (bootedCpu.call sampleLayout .create) :=
    @Reached.step _ _ _ _ (.call .create) .start (fun hsw => absurd hsw hboot) rfl
  have hcreated : ¬ Switching (bootedCpu.call sampleLayout .create) := fun ⟨_,_,ha,_⟩ => by cases ha
  obtain ⟨t,hr,hk,hs,hp⟩ := yield_runs sampleLayout (hcreate.inv (inv_boot _ _ _)) hcreated
  have howner : t.kernel.esp.owner = some 0 := by
    rw [hk]
    rfl
  exact ⟨t,hcreate.trans hr,hs,hk,hp (by rw [howner]; exact Option.some_ne_none 0)⟩

/-- The idle process yields to the new one. -/
theorem idle_yields : ∃ t rest, Reached sampleLayout bootedCpu t ∧ ¬ Switching t ∧
    t.kernel = Scheduler.run sampleLayout Exec.bootedKernel [.create,.yield,.yield] ∧
      t.pending (some 0) = ⟨5,some 0,.away⟩ :: rest := by
  obtain ⟨t,hr,hs,hk,-⟩ := shell_yields
  obtain ⟨u,hr',hk',hs',hp⟩ := yield_runs sampleLayout (hr.inv (inv_boot _ _ _)) hs
  rw [hk] at hk' hp
  have howner : u.kernel.esp.owner = some 1 := by
    rw [hk']
    rfl
  exact ⟨u,t.acts,hr.trans hr',hs',hk',hp (by rw [howner]; decide)⟩

/-- The new process has saved its own pointer, and a key wakes the blocked ones, when the idle process is looked at. -/
theorem context_kept_idle : ∃ s a rest, Reached sampleLayout bootedCpu s ∧ Switching s ∧
    s.pending (some 0) = a :: rest ∧ Resumable sampleLayout ⟨some 0,a.depth⟩ s := by
  obtain ⟨t,rest,hr,hs,hk,hp⟩ := idle_yields
  have howner : t.kernel.esp.owner = some 1 := by
    rw [hk]
    rfl
  let t₁ := t.call sampleLayout .yield
  let t₂ := t₁.goOn .sched (saveEsp t₁.kernel)
  have hcall : Reached sampleLayout t t₁ := @Reached.step _ _ _ _ (.call .yield) .start (fun hsw => absurd hsw hs) rfl
  have hat := (at_call sampleLayout t).goOn .sched (saveEsp_esp t₁.kernel)
  have hsaved : Reached sampleLayout bootedCpu t₂ := (hr.trans hcall).trans ((at_call sampleLayout t).reached rfl)
  have hwake : Reached sampleLayout bootedCpu (t₂.call sampleLayout .wakeAllBlocked) :=
    @Reached.step _ _ _ _ (.call .wakeAllBlocked) hsaved (fun _ => trivial) rfl
  have hpend : (t₂.call sampleLayout .wakeAllBlocked).pending (some 0) = ⟨5,some 0,.away⟩ :: rest := by
    have hne : some 0 ≠ t.kernel.esp.owner := by
      rw [howner]
      decide
    change t₂.pending (some 0) = _
    rw [goOn_pending (at_call sampleLayout t).acts]
    change Function.update (Function.update t.pending t.kernel.esp.owner _) t.kernel.esp.owner _ (some 0) = _
    rw [Function.update_of_ne hne,Function.update_of_ne hne,hp]
  have hkernel : (t₂.call sampleLayout .wakeAllBlocked).kernel = processWakeAllBlocked (schedPoint
      (Scheduler.run sampleLayout Exec.bootedKernel [.create,.yield,.yield])) := by
    rw [← hk]
    rfl
  refine ⟨_,_,rest,hwake,⟨_,_,hat.acts,Point.noConfusion⟩,hpend,?_⟩
  refine (context_kept_iff sampleLayout _ _ hwake hpend ?_ ?_).mpr (Option.some_ne_none 0)
  · rw [hkernel]
    decide
  · rintro ⟨c,hc,hz⟩
    cases hc
    rw [hkernel] at hz
    exact absurd hz (by unfold Zombie; decide)

/-- The shell never runs again. And when the timer yields between the write of `current_process` and the switch of
the stack, the process switched to loses its pointer. -/
theorem contexts_lost :
    (∃ s, Reached sampleLayout bootedCpu s ∧ s.pending none = [⟨5,none,.away⟩] ∧ s.kernel.esp.owner ≠ none ∧
      ¬ Resumable sampleLayout ⟨none,5⟩ s) ∧
    ∃ s s' s'' d rest, Reached sampleLayout bootedCpu s ∧ s.pending (some 1) = ⟨d,some 1,.away⟩ :: rest ∧
      Resumable sampleLayout ⟨some 1,d⟩ s ∧ step sampleLayout s (.call .yield) = some s' ∧
      step sampleLayout s' .advance = some s'' ∧ s''.kernel.esp.owner ≠ some 1 ∧
      ¬ Terminated (some 1) s''.kernel ∧ ¬ Resumable sampleLayout ⟨some 1,d⟩ s'' := by
  constructor
  · obtain ⟨t,hr,-,hk,hp⟩ := shell_yields
    have howner : t.kernel.esp.owner ≠ none := by
      rw [hk]
      decide
    refine ⟨t,hr,hp,howner,?_⟩
    rintro ⟨i,-,u,hu,-,hesp⟩
    apply owner_reached hu (hr.inv (inv_boot _ _ _)) howner
    rw [hesp]
    rfl
  · obtain ⟨t,_,hr,hs,hk,-⟩ := idle_yields
    obtain ⟨u,hr₁,hk₁,hs₁,hp₁⟩ := yield_runs sampleLayout (hr.inv (inv_boot _ _ _)) hs
    rw [hk] at hk₁ hp₁
    obtain ⟨v,hr₂,hat,hk₂⟩ := chosen_runs sampleLayout hs₁
    have hnext : nextSlot u.kernel = 1 := by
      rw [hk₁]
      decide
    rw [hnext] at hat
    let w := v.goOn (.beforeSwitch 1) { v.kernel with current := some 1 }
    have hw : Reached sampleLayout bootedCpu w := ((hr.trans hr₁).trans hr₂).trans (hat.reached rfl)
    have hpend : w.pending (some 1) = ⟨5,some 1,.away⟩ :: t.acts := by
      have hu : u.pending (some 1) = ⟨5,some 1,.away⟩ :: t.acts := hp₁ (by rw [hk₁]; decide)
      have hne : some 1 ≠ u.kernel.esp.pushFrame.owner := by
        rw [hk₁]
        decide
      have hat₁ : At w _ _ _ (.beforeSwitch 1) := hat.goOn _ rfl
      rw [hat₁.pending,Function.update_of_ne hne,hu]
    have hkernel : w.kernel = { (schedNext (schedPoint (processYield sampleLayout
        (Scheduler.run sampleLayout Exec.bootedKernel [.create,.yield,.yield])))).2 with current := some 1 } := by
      rw [← hk₁,← hk₂]
      rfl
    have hlost : ((w.call sampleLayout .yield).goOn .sched (saveEsp (w.call sampleLayout .yield).kernel)).kernel =
        schedPoint w.kernel := rfl
    refine ⟨w,w.call sampleLayout .yield,_,5,t.acts,hw,hpend,?_,rfl,(at_call sampleLayout w).step.trans rfl,?_,?_,?_⟩
    · have hwait : Waiting w.kernel 1 5 := by
        rw [hkernel]
        refine ⟨by decide,by decide,by decide,?_⟩
        unfold Zombie
        decide
      obtain ⟨t',ht',hcur,hesp⟩ := back_of_waiting (K := sampleLayout) (hw.inv (inv_boot _ _ _)) hwait
      exact ⟨1,hwait.saved,t',ht',hcur,hesp⟩
    · rw [hlost,hkernel]
      decide
    · rintro ⟨c,hc,hz⟩
      cases hc
      rw [hlost,hkernel] at hz
      exact absurd hz (by unfold Zombie; decide)
    · rintro ⟨i,hi,-⟩
      rw [hlost,hkernel] at hi
      revert i
      decide

end VesperOS.InterruptedSwitch
