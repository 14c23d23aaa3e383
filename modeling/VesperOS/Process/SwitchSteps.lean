import VesperOS.Process.ContextSwitch

/-! # The steps of a switch

`process_yield` does not mask interrupts, and the idle process and the shell call it with
interrupts on. Here its statements are single steps, and code that interrupts them may call
any function of `process.h`, `process_yield` included. Each stack keeps the calls of
`process_yield` that have not returned on it, the innermost first.
-/
namespace VesperOS.SwitchSteps
open Paging ProcessTable Scheduler SpaceLifecycle ContextSwitch

/-- The statement of `process_yield` or `sched_next` that comes next. -/
inductive Point where
  /-- The frame is pushed; `current_process->esp = esp` is next. -/
  | save
  | sched
  | bootstrap (left : List Slot)
  | roundRobin (left : List Slot)
  /-- `sched_next` returned. -/
  | assign (next : Slot)
  | beforeSwitch (next : Slot)
  | load (next : Slot)
  /-- The stack was left. -/
  | away

/-- A call of `process_yield`: the depth of its frame, and `current_process` when it was made. -/
structure Act where
  depth : ℕ
  called : Option Slot
  point : Point

structure Cpu where
  kernel : Kernel
  pending : Option Slot → List Act

/-- The calls on the stack that runs. -/
def Cpu.acts (s : Cpu) : List Act := s.pending s.kernel.esp.owner

/-- The innermost call moves on to the point `p`. -/
def Cpu.goOn (s : Cpu) (p : Point) (k : Kernel) : Cpu :=
  ⟨k,Function.update s.pending s.kernel.esp.owner (match s.acts with
    | [] => []
    | a :: rest => { a with point := p } :: rest)⟩

/-- `mov esp, [esi + PROC_ESP]`, the pops and the return: the calls whose frames lie below are gone. -/
def Cpu.switchTo (s : Cpu) (sp : StackPtr) : Cpu :=
  ⟨{ s.kernel with esp := sp.popFrame },
    Function.update s.pending sp.owner ((s.pending sp.owner).dropWhile (fun a => sp.depth ≤ a.depth))⟩

/-- The next statement of a call at a point. -/
def Cpu.exec (K : KernelLayout) (s : Cpu) : Point → Option Cpu
  | .save => some (s.goOn .sched (saveEsp s.kernel))
  | .sched => some (match s.kernel.current with
    | none => s.goOn (.bootstrap (List.finRange 16)) s.kernel
    | some c => s.goOn (.roundRobin (after c))
        (if (s.kernel.table c).state = .running then s.kernel.setState c .ready else s.kernel))
  | .bootstrap (i :: left) => some (
    if Runnable (s.kernel.table i).state then s.goOn (.assign i) (s.kernel.setState i .running)
    else s.goOn (.bootstrap left) s.kernel)
  | .roundRobin (i :: left) => some (
    if (s.kernel.table i).state = .ready then s.goOn (.assign i) (s.kernel.setState i .running)
    else s.goOn (.roundRobin left) s.kernel)
  | .bootstrap [] | .roundRobin [] => some (s.goOn (.assign idleSlot) (s.kernel.setState idleSlot .running))
  | .assign next => some (s.goOn (.beforeSwitch next) { s.kernel with current := some next })
  | .beforeSwitch next => some (s.goOn (.load next) (processBeforeSwitch K next s.kernel))
  | .load next => some ((s.goOn .away s.kernel).switchTo (s.kernel.table next).esp)
  | .away => none

inductive Move where
  /-- Code of the stack that runs pushes and pops. -/
  | code (depth : ℕ)
  /-- Code of the stack that runs, or an interrupt handler on it, calls a function of `process.h`. -/
  | call (call : KernelCall)
  /-- The innermost call of `process_yield` goes on. -/
  | advance

def Cpu.call (K : KernelLayout) (s : Cpu) (call : KernelCall) : Cpu :=
  match call.yieldPoint s.kernel with
  | some k => ⟨{ k with esp := k.esp.pushFrame },
      Function.update s.pending k.esp.owner (⟨k.esp.depth+5,s.kernel.current,.save⟩ :: s.acts)⟩
  | none => { s with kernel := call.apply K s.kernel }

def step (K : KernelLayout) (s : Cpu) : Move → Option Cpu
  | .code depth =>
    if ∀ a ∈ s.acts.head?, a.depth ≤ depth then
      some { s with kernel := { s.kernel with esp := ⟨s.kernel.esp.owner,depth⟩ } }
    else none
  | .call call => some (s.call K call)
  | .advance =>
    match s.acts with
    | [] => none
    | a :: _ => if a.depth = s.kernel.esp.depth then s.exec K a.point else none

/-- A call of `process_yield` on the stack that runs has saved its pointer and not yet loaded the next one. -/
def Switching (s : Cpu) : Prop := ∃ a rest, s.acts = a :: rest ∧ a.point ≠ .save

/-- Wake-ups change states only. -/
def Wakes : KernelCall → Prop
  | .wake _ | .wakeAllBlocked => True
  | _ => False

/-- Nothing but wake-ups is called in the middle of a switch. -/
def Undisturbed (s : Cpu) : Move → Prop
  | .call call => Switching s → Wakes call
  | _ => True

inductive Reached (K : KernelLayout) (s₀ : Cpu) : Cpu → Prop
  | start : Reached K s₀ s₀
  | step {s s' : Cpu} {mv : Move} : Reached K s₀ s → Undisturbed s mv → step K s mv = some s' → Reached K s₀ s'

def boot (K : KernelLayout) (mach : Machine) (old : Slot → Proc) : Cpu := ⟨processInit K mach old,fun _ => []⟩

theorem Reached.trans {K : KernelLayout} {s t u : Cpu} (h : Reached K s t) (h' : Reached K t u) : Reached K s u := by
  induction h' with
  | start => exact h
  | step _ hu hs ih => exact .step ih hu hs

/-! ## Between two switches, and inside one -/

/-- The pointers of the used slots, with `n` the only slot that may be RUNNING. -/
structure Chosen (k : Kernel) (n : Slot) : Prop where
  saved : ∀ i, (k.table i).state ≠ .unused → (k.table i).esp.owner = some i
  idle : (k.table 0).state ≠ .unused
  running : ∀ i, (k.table i).state = .running → i = n
  used : (k.table n).state ≠ .unused

/-- The slot of the caller, if it has one, holds the pointer to its frame. -/
def Stored (k : Kernel) (depth : ℕ) : Prop :=
  ∀ c, k.esp.owner = some c → (k.table c).esp = ⟨some c,depth⟩ ∧ (k.table c).state ≠ .unused

/-- What holds while the innermost call of the stack that runs is at a point. -/
def Stage (k : Kernel) (depth : ℕ) : Point → Prop
  | .save => StacksOwned k
  | .sched => StacksOwned k ∧ Stored k depth
  | .bootstrap _ | .roundRobin _ => StacksOwned k ∧ Stored k depth ∧ ∀ i, (k.table i).state ≠ .running
  | .assign n => Chosen k n ∧ Stored k depth
  | .beforeSwitch n | .load n => Chosen k n ∧ Stored k depth ∧ k.current = some n
  | .away => False

theorem Stored.restate {k k' : Kernel} {depth : ℕ} (h : Stored k depth) (hr : Restated k k') : Stored k' depth := by
  intro c hc
  rw [hr.esp] at hc
  obtain ⟨h1,h2⟩ := h c hc
  exact ⟨(hr.saved c).trans h1,(hr.used_iff c).mpr h2⟩

theorem Chosen.restate {k k' : Kernel} {n : Slot} (h : Chosen k n) (hr : Restated k k') : Chosen k' n := by
  refine ⟨fun i hi => ?_,(hr.used_iff 0).mpr h.idle,fun i hi => ?_,(hr.used_iff n).mpr h.used⟩
  · rw [hr.saved]
    exact h.saved i ((hr.used_iff i).mp hi)
  · rcases hr.state i with he | ⟨_,_,h3⟩
    · exact h.running i (he ▸ hi)
    · exact absurd hi h3

theorem Stage.restate {k k' : Kernel} {depth : ℕ} {p : Point} (h : Stage k depth p) (hr : Restated k k') :
    Stage k' depth p := by
  have hnone : (∀ i, (k.table i).state ≠ .running) → ∀ i, (k'.table i).state ≠ .running := by
    intro hn i hi
    rcases hr.state i with he | ⟨_,_,h3⟩
    · exact hn i (he ▸ hi)
    · exact h3 hi
  cases p with
  | save => exact StacksOwned.restate h hr
  | sched => exact ⟨h.1.restate hr,h.2.restate hr⟩
  | bootstrap left => exact ⟨h.1.restate hr,h.2.1.restate hr,hnone h.2.2⟩
  | roundRobin left => exact ⟨h.1.restate hr,h.2.1.restate hr,hnone h.2.2⟩
  | assign n => exact ⟨h.1.restate hr,h.2.restate hr⟩
  | beforeSwitch n => exact ⟨h.1.restate hr,h.2.1.restate hr,hr.current.trans h.2.2⟩
  | load n => exact ⟨h.1.restate hr,h.2.1.restate hr,hr.current.trans h.2.2⟩
  | away => exact h

/-- The depth of the stack that runs does not matter. -/
theorem Stage.setDepth {k : Kernel} {depth : ℕ} {p : Point} (h : Stage k depth p) (d : ℕ) :
    Stage { k with esp := ⟨k.esp.owner,d⟩ } depth p := by
  have hs : StacksOwned k → StacksOwned { k with esp := ⟨k.esp.owner,d⟩ } :=
    fun h => ⟨h.saved,h.idle,h.onStack,h.used,h.running⟩
  cases p with
  | save => exact hs h
  | sched => exact ⟨hs h.1,h.2⟩
  | bootstrap left => exact ⟨hs h.1,h.2⟩
  | roundRobin left => exact ⟨hs h.1,h.2⟩
  | assign n => exact ⟨⟨h.1.saved,h.1.idle,h.1.running,h.1.used⟩,h.2⟩
  | beforeSwitch n => exact ⟨⟨h.1.saved,h.1.idle,h.1.running,h.1.used⟩,h.2⟩
  | load n => exact ⟨⟨h.1.saved,h.1.idle,h.1.running,h.1.used⟩,h.2⟩
  | away => exact h

/-! ## The calls on the stacks -/

/-- The calls on one stack: each frame lies above the one before it, and only the innermost call has saved a pointer. -/
structure Nested (acts : List Act) : Prop where
  depths : acts.Pairwise (fun a b => b.depth+5 ≤ a.depth)
  outer : ∀ a ∈ acts.tail, a.point = .save

/-- In the slot of a stack that was left stands the pointer to its innermost call. -/
def Parked (k : Kernel) (x : Option Slot) (acts : List Act) : Prop :=
  ∀ a rest, acts = a :: rest → a.point = .away ∧ ∀ c, x = some c → (k.table c).esp = ⟨some c,a.depth⟩

structure Inv (s : Cpu) : Prop where
  settled : s.acts = [] → StacksOwned s.kernel
  stage : ∀ a rest, s.acts = a :: rest → Stage s.kernel a.depth a.point
  deep : ∀ a rest, s.acts = a :: rest → a.depth ≤ s.kernel.esp.depth
  parked : ∀ x, x ≠ s.kernel.esp.owner → Parked s.kernel x (s.pending x)
  nested : ∀ x, Nested (s.pending x)
  called : ∀ x, ∀ a ∈ s.pending x, a.called = x
  fresh : ∀ c, (s.kernel.table c).state = .unused → s.pending (some c) = []

theorem inv_boot (K : KernelLayout) (mach : Machine) (old : Slot → Proc) : Inv (boot K mach old) := by
  refine ⟨fun _ => stacksOwned_processInit K mach old,?_,?_,?_,?_,?_,fun _ _ => rfl⟩
  · intro a rest h
    cases h
  · intro a rest h
    cases h
  · intro x _ a rest h
    cases h
  · intro x
    exact ⟨List.Pairwise.nil,fun a ha => absurd ha List.not_mem_nil⟩
  · intro x a ha
    cases ha

theorem Inv.owned {s : Cpu} (h : Inv s) (hs : ¬ Switching s) : StacksOwned s.kernel := by
  cases ha : s.acts with
  | nil => exact h.settled ha
  | cons a rest =>
    have hstage := h.stage a rest ha
    have hp : a.point = .save := by
      by_contra hne
      exact hs ⟨a,rest,ha,hne⟩
    rw [hp] at hstage
    exact hstage

/-- Steps that only change states, or the depth of the stack that runs. -/
theorem Inv.restate {s : Cpu} (h : Inv s) {k' : Kernel} (hr : Restated s.kernel k') : Inv ⟨k',s.pending⟩ := by
  have hacts : Cpu.acts ⟨k',s.pending⟩ = s.acts := by
    unfold Cpu.acts
    dsimp only
    rw [hr.esp]
  constructor
  · rw [hacts]
    exact fun ha => (h.settled ha).restate hr
  · rw [hacts]
    exact fun a rest ha => (h.stage a rest ha).restate hr
  · rw [hacts]
    intro a rest ha
    dsimp only
    rw [hr.esp]
    exact h.deep a rest ha
  · intro x hx a rest ha
    dsimp only at hx
    rw [hr.esp] at hx
    obtain ⟨h1,h2⟩ := h.parked x hx a rest ha
    exact ⟨h1,fun c hc => (hr.saved c).trans (h2 c hc)⟩
  · exact h.nested
  · exact h.called
  · intro c hc
    apply h.fresh
    by_contra hne
    exact (hr.used_iff c).mpr hne hc

theorem Inv.code {s : Cpu} (h : Inv s) {d : ℕ} (hd : ∀ a ∈ s.acts.head?, a.depth ≤ d) :
    Inv { s with kernel := { s.kernel with esp := ⟨s.kernel.esp.owner,d⟩ } } := by
  constructor
  · intro ha
    have hs : StacksOwned s.kernel := h.settled ha
    exact ⟨hs.saved,hs.idle,hs.onStack,hs.used,hs.running⟩
  · exact fun a rest ha => (h.stage a rest ha).setDepth d
  · intro a rest ha
    exact hd a (by rw [show s.acts = a :: rest from ha]; rfl)
  · exact h.parked
  · exact h.nested
  · exact h.called
  · exact h.fresh

/-! ## Calls -/

theorem Inv.depth_le {s : Cpu} (h : Inv s) {a : Act} (ha : a ∈ s.acts) : a.depth ≤ s.kernel.esp.depth := by
  cases hacts : s.acts with
  | nil =>
    rw [hacts] at ha
    cases ha
  | cons b rest =>
    have hb := h.deep b rest hacts
    have hpw := (h.nested s.kernel.esp.owner).depths
    rw [show s.pending s.kernel.esp.owner = b :: rest from hacts] at hpw
    rw [hacts] at ha
    rcases List.mem_cons.mp ha with rfl | hin
    · exact hb
    · have hle := (List.pairwise_cons.mp hpw).1 a hin
      omega

theorem Inv.all_save {s : Cpu} (h : Inv s) (hs : ¬ Switching s) {a : Act} (ha : a ∈ s.acts) : a.point = .save := by
  cases hacts : s.acts with
  | nil =>
    rw [hacts] at ha
    cases ha
  | cons b rest =>
    have houter := (h.nested s.kernel.esp.owner).outer
    rw [show s.pending s.kernel.esp.owner = b :: rest from hacts] at houter
    rw [hacts] at ha
    rcases List.mem_cons.mp ha with rfl | hin
    · by_contra hne
      exact hs ⟨a,rest,hacts,hne⟩
    · exact houter a hin

/-- A new call of `process_yield`. -/
theorem Inv.push {s : Cpu} (h : Inv s) (hs : ¬ Switching s) {c : Option Slot} (hc : s.kernel.current = c) :
    Inv ⟨{ s.kernel with esp := s.kernel.esp.pushFrame },
      Function.update s.pending s.kernel.esp.owner (⟨s.kernel.esp.depth+5,c,.save⟩ :: s.acts)⟩ := by
  subst hc
  have hown := h.owned hs
  have hacts : Cpu.acts ⟨{ s.kernel with esp := s.kernel.esp.pushFrame },
      Function.update s.pending s.kernel.esp.owner (⟨s.kernel.esp.depth+5,s.kernel.current,.save⟩ :: s.acts)⟩ =
        ⟨s.kernel.esp.depth+5,s.kernel.current,.save⟩ :: s.acts := Function.update_self _ _ _
  constructor
  · rw [hacts]
    intro ha
    cases ha
  · rw [hacts]
    intro a rest ha
    obtain ⟨rfl,_⟩ := List.cons.inj ha
    exact ⟨hown.saved,hown.idle,hown.onStack,hown.used,hown.running⟩
  · rw [hacts]
    intro a rest ha
    obtain ⟨rfl,_⟩ := List.cons.inj ha
    exact le_refl _
  · intro x hx
    have hne : x ≠ s.kernel.esp.owner := hx
    dsimp only
    rw [Function.update_of_ne hne]
    exact h.parked x hne
  · intro x
    dsimp only
    by_cases hx : x = s.kernel.esp.owner
    · rw [hx,Function.update_self]
      refine ⟨List.pairwise_cons.mpr ⟨fun a ha => ?_,(h.nested s.kernel.esp.owner).depths⟩,fun a ha => h.all_save hs ha⟩
      have hle := h.depth_le ha
      dsimp only
      omega
    · rw [Function.update_of_ne hx]
      exact h.nested x
  · intro x a ha
    dsimp only at ha
    by_cases hx : x = s.kernel.esp.owner
    · rw [hx,Function.update_self] at ha
      rcases List.mem_cons.mp ha with rfl | hin
      · exact hown.onStack.symm.trans hx.symm
      · exact (h.called _ a hin).trans hx.symm
    · rw [Function.update_of_ne hx] at ha
      exact h.called x a ha
  · intro c hc
    have hx : some c ≠ s.kernel.esp.owner := by
      intro he
      exact hown.used c (hown.onStack.symm.trans he.symm) hc
    dsimp only
    rw [Function.update_of_ne hx]
    exact h.fresh c hc

/-- A call that does not switch keeps the pointers of the used slots. -/
theorem apply_saved {K : KernelLayout} {k : Kernel} {call : KernelCall} (hy : call.yieldPoint k = none) {c : Slot}
    (hc : (k.table c).state ≠ .unused) :
    ((call.apply K k).table c).esp = (k.table c).esp ∧ ((call.apply K k).table c).state ≠ .unused := by
  have hcreate : ∀ isUser userEip userEsp pdPhys,
      ((createProc isUser userEip userEsp pdPhys k).2.table c).esp = (k.table c).esp ∧
        ((createProc isUser userEip userEsp pdPhys k).2.table c).state ≠ .unused := by
    intro isUser userEip userEsp pdPhys
    rcases createProc_cases isUser userEip userEsp pdPhys k with he | ⟨i,p,n,hi,_,_,he⟩
    · rw [he]
      exact ⟨rfl,hc⟩
    · have hne : c ≠ i := by
        rintro rfl
        exact hc hi
      rw [he]
      unfold Kernel.setProc
      dsimp only
      rw [Function.update_of_ne hne]
      exact ⟨rfl,hc⟩
  have hrestated : ∀ {k'}, Restated k k' → (k'.table c).esp = (k.table c).esp ∧ (k'.table c).state ≠ .unused :=
    fun hr => ⟨hr.saved c,(hr.used_iff c).mpr hc⟩
  cases call with
  | create => exact hcreate _ _ _ _
  | createUser userEip userEsp pdPhys => exact hcreate _ _ _ _
  | kill pid => exact hrestated (restated_kill pid k)
  | wake p => exact hrestated (restated_wake p k)
  | wakeAllBlocked => exact hrestated (restated_wakeAllBlocked k)
  | _ => cases hy

theorem Inv.apply {s : Cpu} (h : Inv s) (hs : ¬ Switching s) (K : KernelLayout) {call : KernelCall}
    (hy : call.yieldPoint s.kernel = none) : Inv { s with kernel := call.apply K s.kernel } := by
  have hesp := (@apply_stays K s.kernel call hy).2
  have hown := (h.owned hs).apply K call
  have hacts : Cpu.acts { s with kernel := call.apply K s.kernel } = s.acts := by
    unfold Cpu.acts
    dsimp only
    rw [hesp]
  constructor
  · exact fun _ => hown
  · rw [hacts]
    intro a rest ha
    rw [h.all_save hs (ha ▸ List.mem_cons_self)]
    exact hown
  · rw [hacts]
    intro a rest ha
    dsimp only
    rw [hesp]
    exact h.deep a rest ha
  · intro x hx a rest ha
    dsimp only at hx ha
    rw [hesp] at hx
    obtain ⟨h1,h2⟩ := h.parked x hx a rest ha
    refine ⟨h1,?_⟩
    rintro c rfl
    have hused : (s.kernel.table c).state ≠ .unused := by
      intro hc
      rw [h.fresh c hc] at ha
      cases ha
    exact (apply_saved hy hused).1.trans (h2 c rfl)
  · exact h.nested
  · exact h.called
  · intro c hc
    apply h.fresh
    by_contra hne
    exact (@apply_saved K s.kernel call hy c hne).2 hc

theorem wakes_yieldPoint {call : KernelCall} (hw : Wakes call) (k : Kernel) : call.yieldPoint k = none := by
  cases call <;> first | rfl | exact hw.elim

theorem restated_wakes {call : KernelCall} (hw : Wakes call) (K : KernelLayout) (k : Kernel) :
    Restated k (call.apply K k) := by
  cases call with
  | wake p => exact restated_wake p k
  | wakeAllBlocked => exact restated_wakeAllBlocked k
  | _ => exact hw.elim

theorem Inv.call {s : Cpu} (h : Inv s) (K : KernelLayout) {call : KernelCall} (hu : Undisturbed s (.call call)) :
    Inv (s.call K call) := by
  unfold Cpu.call
  by_cases hs : Switching s
  · have hw := hu hs
    rw [wakes_yieldPoint hw]
    exact h.restate (restated_wakes hw K s.kernel)
  · cases hy : call.yieldPoint s.kernel with
    | none => exact h.apply hs K hy
    | some k₀ =>
      have hr := restated_yieldPoint (h.owned hs) hy
      have hacts : Cpu.acts ⟨k₀,s.pending⟩ = s.acts := by
        unfold Cpu.acts
        dsimp only
        rw [hr.esp]
      have hs₀ : ¬ Switching ⟨k₀,s.pending⟩ := by
        rintro ⟨a,rest,ha,hne⟩
        exact hs ⟨a,rest,hacts ▸ ha,hne⟩
      have hpush := (h.restate hr).push hs₀ hr.current
      rw [hacts] at hpush
      exact hpush

/-! ## The statements of a switch -/

theorem Stored.setState {k : Kernel} {depth : ℕ} (h : Stored k depth) (i : Slot) {st : ProcState} (hst : st ≠ .unused) :
    Stored (k.setState i st) depth := by
  intro c hc
  obtain ⟨h1,h2⟩ := h c hc
  rw [setState_table]
  refine ⟨h1,?_⟩
  dsimp only
  split
  · exact hst
  · exact h2

/-- A slot is chosen where none is RUNNING. -/
theorem chosen_setState {k : Kernel} {i : Slot} (h : StacksOwned k) (hn : ∀ j, (k.table j).state ≠ .running)
    (hi : (k.table i).state ≠ .unused) : Chosen (k.setState i .running) i := by
  have hused : ∀ j, ((k.setState i .running).table j).state ≠ .unused → (k.table j).state ≠ .unused := by
    intro j hj
    rw [setState_table] at hj
    by_cases hji : j = i
    · rw [hji]
      exact hi
    · simpa [hji] using hj
  constructor
  · intro j hj
    rw [setState_table]
    exact h.saved j (hused j hj)
  · rw [setState_table]
    dsimp only
    split
    · decide
    · exact h.idle
  · intro j hj
    rw [setState_table] at hj
    by_contra hji
    rw [if_neg hji] at hj
    exact hn j hj
  · rw [setState_table,if_pos rfl]
    exact ProcState.noConfusion

section Statements
variable {s : Cpu} {a : Act} {rest : List Act} (h : Inv s) (ha : s.acts = a :: rest)
include ha

theorem goOn_pending (p : Point) (k' : Kernel) :
    (s.goOn p k').pending = Function.update s.pending s.kernel.esp.owner ({ a with point := p } :: rest) := by
  unfold Cpu.goOn
  rw [ha]

include h

theorem Inv.nested_goOn (p : Point) (k' : Kernel) (x : Option Slot) : Nested ((s.goOn p k').pending x) := by
  have hn := h.nested s.kernel.esp.owner
  rw [show s.pending s.kernel.esp.owner = a :: rest from ha] at hn
  rw [goOn_pending ha]
  by_cases hx : x = s.kernel.esp.owner
  · rw [hx,Function.update_self]
    exact ⟨List.pairwise_cons.mpr (List.pairwise_cons.mp hn.depths),hn.outer⟩
  · rw [Function.update_of_ne hx]
    exact h.nested x

theorem Inv.called_goOn (p : Point) (k' : Kernel) (x : Option Slot) : ∀ b ∈ (s.goOn p k').pending x, b.called = x := by
  have hcalled := h.called s.kernel.esp.owner
  rw [show s.pending s.kernel.esp.owner = a :: rest from ha] at hcalled
  rw [goOn_pending ha]
  intro b hb
  by_cases hx : x = s.kernel.esp.owner
  · rw [hx,Function.update_self] at hb
    rw [hx]
    rcases List.mem_cons.mp hb with rfl | hin
    · exact hcalled a List.mem_cons_self
    · exact hcalled b (List.mem_cons_of_mem a hin)
  · rw [Function.update_of_ne hx] at hb
    exact h.called x b hb

/-- A statement that keeps the stack, and the pointers of the stacks that do not run. -/
theorem Inv.goOn {p : Point} {k' : Kernel} (hesp : k'.esp = s.kernel.esp) (hstage : Stage k' a.depth p)
    (hsaved : ∀ c, some c ≠ s.kernel.esp.owner → (k'.table c).esp = (s.kernel.table c).esp)
    (hused : ∀ c, (s.kernel.table c).state ≠ .unused → (k'.table c).state ≠ .unused) : Inv (s.goOn p k') := by
  have hpend := goOn_pending ha p k'
  have hk : (s.goOn p k').kernel = k' := rfl
  have hacts : (s.goOn p k').acts = { a with point := p } :: rest := by
    unfold Cpu.acts
    rw [hpend,hk,hesp,Function.update_self]
  have hself : s.pending s.kernel.esp.owner = a :: rest := ha
  constructor
  · rw [hacts]
    intro he
    cases he
  · rw [hacts]
    intro b r he
    obtain ⟨rfl,_⟩ := List.cons.inj he
    exact hstage
  · rw [hacts,hk,hesp]
    intro b r he
    obtain ⟨rfl,_⟩ := List.cons.inj he
    exact h.deep a rest ha
  · intro x hx b r he
    rw [hk,hesp] at hx
    rw [hpend,Function.update_of_ne hx] at he
    obtain ⟨h1,h2⟩ := h.parked x hx b r he
    refine ⟨h1,fun c hc => ?_⟩
    exact (hsaved c (hc ▸ hx)).trans (h2 c hc)
  · exact h.nested_goOn ha p k'
  · exact h.called_goOn ha p k'
  · intro c hc
    have hun : (s.kernel.table c).state = .unused := by
      by_contra hne
      exact hused c hne hc
    have hfresh := h.fresh c hun
    have hx : some c ≠ s.kernel.esp.owner := by
      intro he
      rw [he,hself] at hfresh
      cases hfresh
    rw [hpend,Function.update_of_ne hx]
    exact hfresh

end Statements

theorem Inv.setRunning {s : Cpu} (h : Inv s) {a : Act} {rest : List Act} (ha : s.acts = a :: rest) {i : Slot}
    (hown : StacksOwned s.kernel) (hstored : Stored s.kernel a.depth) (hn : ∀ j, (s.kernel.table j).state ≠ .running)
    (hi : (s.kernel.table i).state ≠ .unused) : Inv (s.goOn (.assign i) (s.kernel.setState i .running)) := by
  refine h.goOn ha rfl ⟨chosen_setState hown hn hi,hstored.setState i (by decide)⟩ (fun c _ => ?_) fun c hc => ?_
  · rw [setState_table]
  · rw [setState_table]
    dsimp only
    split
    · decide
    · exact hc

/-- Of the calls on a stack that was left, the innermost returns. -/
theorem dropWhile_nested {acts : List Act} {d : ℕ} (h : Nested acts) (hd : ∀ a rest, acts = a :: rest → a.depth = d) :
    acts.dropWhile (fun a => d ≤ a.depth) = acts.tail := by
  cases acts with
  | nil => rfl
  | cons a rest =>
    have had := hd a rest rfl
    rw [List.dropWhile_cons_of_pos (by simpa using had.ge),List.tail_cons]
    cases rest with
    | nil => rfl
    | cons b rest =>
      have hb := (List.pairwise_cons.mp h.depths).1 b List.mem_cons_self
      apply List.dropWhile_cons_of_neg
      simp only [decide_eq_true_eq]
      omega

/-- `mov esp` comes back to the innermost call on the other stack, or starts a new process there. -/
theorem inv_switchTo {t : Cpu} {n : Slot} (hk : Chosen t.kernel n) (hcur : t.kernel.current = some n)
    (hparked : ∀ x, Parked t.kernel x (t.pending x)) (hnested : ∀ x, Nested (t.pending x))
    (hcalled : ∀ x, ∀ a ∈ t.pending x, a.called = x)
    (hfresh : ∀ c, (t.kernel.table c).state = .unused → t.pending (some c) = []) :
    Inv (t.switchTo (t.kernel.table n).esp) ∧ ¬ Switching (t.switchTo (t.kernel.table n).esp) := by
  obtain ⟨k,pending⟩ := t
  dsimp only at hk hcur hparked hnested hcalled hfresh ⊢
  have hsp : (k.table n).esp.owner = some n := hk.saved n hk.used
  have hdrop : (pending (some n)).dropWhile (fun a => (k.table n).esp.depth ≤ a.depth) = (pending (some n)).tail := by
    apply dropWhile_nested (hnested _)
    intro a rest ha
    rw [((hparked _ a rest ha).2 n rfl)]
  have hpend : (Cpu.switchTo ⟨k,pending⟩ (k.table n).esp).pending =
      Function.update pending (some n) (pending (some n)).tail := by
    unfold Cpu.switchTo
    dsimp only
    rw [hsp,hdrop]
  have hacts : (Cpu.switchTo ⟨k,pending⟩ (k.table n).esp).acts = (pending (some n)).tail := by
    unfold Cpu.acts
    rw [hpend]
    change Function.update pending (some n) (pending (some n)).tail (k.table n).esp.owner = _
    rw [hsp,Function.update_self]
  have hown : StacksOwned (Cpu.switchTo ⟨k,pending⟩ (k.table n).esp).kernel := by
    refine ⟨hk.saved,hk.idle,hsp.trans hcur.symm,?_,?_⟩
    · intro c hc
      obtain rfl : n = c := Option.some.inj (hcur.symm.trans hc)
      exact hk.used
    · intro i hi
      exact hcur.trans (congrArg some (hk.running i hi).symm)
  have htail : ∀ a ∈ (pending (some n)).tail, a.point = .save := (hnested (some n)).outer
  refine ⟨?_,?_⟩
  swap
  · rintro ⟨a,rest,ha,hne⟩
    exact hne (htail a (by rw [← hacts,ha]; exact List.mem_cons_self))
  constructor
  · exact fun _ => hown
  · rw [hacts]
    intro a rest ha
    rw [htail a (ha ▸ List.mem_cons_self)]
    exact hown
  · rw [hacts]
    intro a rest ha
    cases hn : pending (some n) with
    | nil =>
      rw [hn] at ha
      cases ha
    | cons b r =>
      have hdepth := (hparked _ b r hn).2 n rfl
      have hpw := (hnested (some n)).depths
      rw [hn] at ha hpw
      have hab := (List.pairwise_cons.mp hpw).1 a (by rw [show r = a :: rest from ha]; exact List.mem_cons_self)
      change a.depth ≤ (k.table n).esp.depth-5
      rw [hdepth]
      dsimp only
      omega
  · intro x hx
    have hne : x ≠ some n := fun he => hx (he.trans hsp.symm)
    rw [hpend,Function.update_of_ne hne]
    exact hparked x
  · intro x
    rw [hpend]
    by_cases hx : x = some n
    · rw [hx,Function.update_self]
      refine ⟨(hnested (some n)).depths.sublist (List.tail_sublist _),fun a ha => htail a ?_⟩
      exact List.mem_of_mem_tail ha
    · rw [Function.update_of_ne hx]
      exact hnested x
  · intro x a ha
    rw [hpend] at ha
    by_cases hx : x = some n
    · rw [hx,Function.update_self] at ha
      rw [hx]
      exact hcalled _ a (List.mem_of_mem_tail ha)
    · rw [Function.update_of_ne hx] at ha
      exact hcalled x a ha
  · intro c hc
    have hne : some c ≠ some n := by
      intro he
      rw [Option.some.inj he] at hc
      exact hk.used hc
    rw [hpend,Function.update_of_ne hne]
    exact hfresh c hc

theorem Inv.load {s : Cpu} (h : Inv s) {a : Act} {rest : List Act} (ha : s.acts = a :: rest) {n : Slot}
    (hp : a.point = .load n) : Inv ((s.goOn .away s.kernel).switchTo (s.kernel.table n).esp) ∧
      ¬ Switching ((s.goOn .away s.kernel).switchTo (s.kernel.table n).esp) := by
  have hstage := h.stage a rest ha
  rw [hp] at hstage
  obtain ⟨hchosen,hstored,hcur⟩ := hstage
  have hpend := goOn_pending ha .away s.kernel
  have hloaded := @inv_switchTo (s.goOn .away s.kernel) n hchosen hcur ?_ (h.nested_goOn ha _ _)
    (h.called_goOn ha _ _) ?_
  · exact hloaded
  · intro x b r he
    rw [hpend] at he
    by_cases hx : x = s.kernel.esp.owner
    · rw [hx,Function.update_self] at he
      obtain ⟨rfl,_⟩ := List.cons.inj he
      exact ⟨rfl,fun c hc => (hstored c (hx.symm.trans hc)).1⟩
    · rw [Function.update_of_ne hx] at he
      exact h.parked x hx b r he
  · intro c hc
    have hx : some c ≠ s.kernel.esp.owner := fun he => (hstored c he.symm).2 hc
    rw [hpend,Function.update_of_ne hx]
    exact h.fresh c hc

theorem saveEsp_esp (k : Kernel) : (saveEsp k).esp = k.esp := by
  unfold saveEsp
  split <;> rfl

theorem saveEsp_table (k : Kernel) (i : Slot) : (saveEsp k).table i = { k.table i with
    esp := if k.current = some i then k.esp else (k.table i).esp } := by
  unfold saveEsp
  cases hc : k.current with
  | none => simp
  | some c =>
    dsimp only [Kernel.setProc]
    by_cases hi : i = c
    · subst hi
      simp
    · have hne : c ≠ i := fun he => hi he.symm
      simp [hi,hne]

theorem stacksOwned_saveEsp {k : Kernel} (h : StacksOwned k) : StacksOwned (saveEsp k) := by
  have hcur : (saveEsp k).current = k.current := by
    unfold saveEsp
    split <;> rfl
  constructor
  · intro i hi
    rw [saveEsp_table] at hi ⊢
    dsimp only at hi ⊢
    split
    · rename_i hc
      exact h.onStack.trans hc
    · exact h.saved i hi
  · rw [saveEsp_table]
    exact h.idle
  · rw [saveEsp_esp,hcur]
    exact h.onStack
  · intro c hc
    rw [hcur] at hc
    rw [saveEsp_table]
    exact h.used c hc
  · intro i hi
    rw [saveEsp_table] at hi
    rw [hcur]
    exact h.running i hi

theorem released_none {k : Kernel} (hc : k.current = none) : released k = k := by
  unfold released
  rw [hc]

theorem released_some {k : Kernel} {c : Slot} (hc : k.current = some c) :
    released k = if (k.table c).state = .running then k.setState c .ready else k := by
  unfold released
  rw [hc]

/-- The caller's slot goes back to READY, so none is RUNNING any more. -/
theorem released_settled {k : Kernel} (h : StacksOwned k) :
    Restated k (released k) ∧ ∀ i, ((released k).table i).state ≠ .running := by
  constructor
  · cases hc : k.current with
    | none =>
      rw [released_none hc]
      exact Restated.refl k
    | some c =>
      rw [released_some hc]
      split
      · exact restated_setState (h.used c hc) (by decide) (by decide)
      · exact Restated.refl k
  · intro i hi
    rw [released_table] at hi
    dsimp only at hi
    split at hi
    · cases hi
    · rename_i hno
      exact hno ⟨h.running i hi,hi⟩

theorem Inv.save {s : Cpu} (h : Inv s) {a : Act} {rest : List Act} (ha : s.acts = a :: rest)
    (hd : a.depth = s.kernel.esp.depth) (hown : StacksOwned s.kernel) : Inv (s.goOn .sched (saveEsp s.kernel)) := by
  refine h.goOn ha (saveEsp_esp s.kernel) ⟨stacksOwned_saveEsp hown,?_⟩ (fun c hc => ?_) fun c hc => ?_
  · intro c hc
    rw [saveEsp_esp] at hc
    have hcur : s.kernel.current = some c := hown.onStack.symm.trans hc
    rw [saveEsp_table]
    refine ⟨?_,hown.used c hcur⟩
    dsimp only
    rw [if_pos hcur,hd,← hc]
  · rw [saveEsp_table]
    dsimp only
    rw [if_neg fun hcur => hc (hown.onStack.trans hcur).symm]
  · rw [saveEsp_table]
    exact hc

theorem Inv.sched {s : Cpu} (h : Inv s) {a : Act} {rest : List Act} (ha : s.acts = a :: rest)
    (hown : StacksOwned s.kernel) (hstored : Stored s.kernel a.depth) {left : List Slot} {p : Point}
    (hp : p = .bootstrap left ∨ p = .roundRobin left) : Inv (s.goOn p (released s.kernel)) := by
  obtain ⟨hr,hn⟩ := released_settled hown
  refine h.goOn ha hr.esp ?_ (fun c _ => hr.saved c) fun c hc => (hr.used_iff c).mpr hc
  rcases hp with rfl | rfl <;> exact ⟨hown.restate hr,hstored.restate hr,hn⟩

/-- A slot that is not taken. -/
theorem Inv.skip {s : Cpu} (h : Inv s) {a : Act} {rest : List Act} (ha : s.acts = a :: rest) {left : List Slot}
    {p : Point} (hp : p = .bootstrap left ∨ p = .roundRobin left) (hown : StacksOwned s.kernel)
    (hstored : Stored s.kernel a.depth) (hn : ∀ j, (s.kernel.table j).state ≠ .running) : Inv (s.goOn p s.kernel) := by
  refine h.goOn ha rfl ?_ (fun _ _ => rfl) fun _ hc => hc
  rcases hp with rfl | rfl <;> exact ⟨hown,hstored,hn⟩

/-- Every statement keeps the invariant. -/
theorem Inv.exec {s s' : Cpu} (h : Inv s) (K : KernelLayout) {a : Act} {rest : List Act} (ha : s.acts = a :: rest)
    (hd : a.depth = s.kernel.esp.depth) (he : s.exec K a.point = some s') : Inv s' := by
  have hstage := h.stage a rest ha
  cases hp : a.point with
  | save =>
    rw [hp] at hstage he
    obtain rfl := Option.some.inj he
    exact h.save ha hd hstage
  | sched =>
    rw [hp] at hstage he
    obtain ⟨hown,hstored⟩ := hstage
    obtain rfl := Option.some.inj he
    cases hc : s.kernel.current with
    | none =>
      have hnext := h.sched ha hown hstored (Or.inl (rfl : Point.bootstrap (List.finRange 16) = _))
      rw [released_none hc] at hnext
      exact hnext
    | some c =>
      have hnext := h.sched ha hown hstored (Or.inr (rfl : Point.roundRobin (after c) = _))
      rw [released_some hc] at hnext
      exact hnext
  | bootstrap left =>
    rw [hp] at hstage he
    obtain ⟨hown,hstored,hn⟩ := hstage
    cases left with
    | nil =>
      obtain rfl := Option.some.inj he
      exact h.setRunning ha hown hstored hn hown.idle
    | cons i left =>
      obtain rfl := Option.some.inj he
      split
      · rename_i hrun
        refine h.setRunning ha hown hstored hn fun hu => ?_
        rw [hu] at hrun
        exact absurd hrun (by decide)
      · exact h.skip ha (Or.inl rfl) hown hstored hn
  | roundRobin left =>
    rw [hp] at hstage he
    obtain ⟨hown,hstored,hn⟩ := hstage
    cases left with
    | nil =>
      obtain rfl := Option.some.inj he
      exact h.setRunning ha hown hstored hn hown.idle
    | cons i left =>
      obtain rfl := Option.some.inj he
      split
      · rename_i hready
        refine h.setRunning ha hown hstored hn fun hu => ?_
        rw [hu] at hready
        cases hready
      · exact h.skip ha (Or.inr rfl) hown hstored hn
  | assign n =>
    rw [hp] at hstage he
    obtain rfl := Option.some.inj he
    obtain ⟨hk,hstored⟩ := hstage
    exact h.goOn ha rfl ⟨⟨hk.saved,hk.idle,hk.running,hk.used⟩,hstored,rfl⟩ (fun _ _ => rfl) fun _ hc => hc
  | beforeSwitch n =>
    rw [hp] at hstage he
    obtain rfl := Option.some.inj he
    obtain ⟨hk,hstored,hcur⟩ := hstage
    exact h.goOn ha rfl ⟨⟨hk.saved,hk.idle,hk.running,hk.used⟩,hstored,hcur⟩ (fun _ _ => rfl) fun _ hc => hc
  | load n =>
    rw [hp] at he
    obtain rfl := Option.some.inj he
    exact (h.load ha hp).1
  | away =>
    rw [hp] at he
    cases he

theorem inv_step {K : KernelLayout} {s s' : Cpu} (h : Inv s) {mv : Move} (hu : Undisturbed s mv)
    (hstep : step K s mv = some s') : Inv s' := by
  cases mv with
  | code depth =>
    unfold step at hstep
    dsimp only at hstep
    split at hstep
    · rename_i hd
      obtain rfl := Option.some.inj hstep
      exact h.code hd
    · cases hstep
  | call call =>
    obtain rfl := Option.some.inj hstep
    exact h.call K hu
  | advance =>
    unfold step at hstep
    dsimp only at hstep
    cases ha : s.acts with
    | nil =>
      rw [ha] at hstep
      cases hstep
    | cons a rest =>
      rw [ha] at hstep
      dsimp only at hstep
      split at hstep
      · rename_i hd
        exact h.exec K ha hd hstep
      · cases hstep

theorem Reached.inv {K : KernelLayout} {s t : Cpu} (hr : Reached K s t) (h : Inv s) : Inv t := by
  induction hr with
  | start => exact h
  | step _ hu hstep ih => exact inv_step ih hu hstep

end VesperOS.SwitchSteps
