import VesperOS.Process.ContextSwitch

/-! # The interrupt flag across context switches

The scheduler with the interrupt flag IF of the processor. Every gate is an interrupt
gate: the entry pushes EFLAGS on the stack and clears IF, and IRET restores it from
there. `process_yield` saves four registers and leaves EFLAGS alone, so that the context
it resumes runs on with the IF of the context that called it.
-/
namespace VesperOS.InterruptFlag
open Paging ProcessTable Scheduler ContextSwitch SpaceLifecycle

/-- `frames` has, for each stack, the IF bits that the gates entered on it have pushed, innermost first. `yielded` is
IF at the last call of `process_yield` of a process, if there was one. -/
structure Cpu where
  kernel : Kernel
  iflag : Bool
  frames : Option Slot → List Bool
  yielded : Slot → Option Bool

/-- After the STI of `kernel_main`. -/
def boot (K : KernelLayout) (mach : Machine) (old : Slot → Proc) : Cpu :=
  ⟨processInit K mach old,true,fun _ => [],fun _ => none⟩

inductive CpuStep where
  | irq
  | int80
  | iret
  | sti
  | call (call : KernelCall)

/-- The gates entered and not yet left by the running context. -/
def Cpu.saved (s : Cpu) : List Bool := s.frames s.kernel.esp.owner

/-- Outside of its gates a user process is in ring 3. -/
def Cpu.userMode (s : Cpu) : Bool :=
  s.saved = [] && s.kernel.current.any (fun c => (s.kernel.table c).isUser)

def Cpu.enterGate (s : Cpu) : Cpu :=
  { s with iflag := false, frames := Function.update s.frames s.kernel.esp.owner (s.iflag :: s.saved) }

def Cpu.leaveGate (s : Cpu) (b : Bool) (rest : List Bool) : Cpu :=
  { s with iflag := b, frames := Function.update s.frames s.kernel.esp.owner rest }

/-- Ring 3 calls no kernel function, and the timer handler does not yield without a current process. -/
def Cpu.mayCall (s : Cpu) (call : KernelCall) : Bool :=
  !s.userMode && (s.saved = [] || s.kernel.current.isSome || (call.yieldPoint s.kernel).isNone)

/-- The caller of `process_yield` enters it with the present IF. -/
def Cpu.recorded (s : Cpu) : Slot → Option Bool :=
  match s.kernel.current with
  | none => s.yielded
  | some c => Function.update s.yielded c (some s.iflag)

/-- `process_yield` in the state `k₀`; the first switch to a user process goes through `user_mode_enter`, which
sets IF in the EFLAGS it returns with. -/
def Cpu.switch (K : KernelLayout) (s : Cpu) (k₀ : Kernel) : Cpu :=
  { s with
    kernel := processYield K k₀
    iflag := if s.recorded (nextSlot k₀) = none ∧ (k₀.table (nextSlot k₀)).isUser = true then true else s.iflag
    yielded := s.recorded }

def Cpu.calls (K : KernelLayout) (s : Cpu) (call : KernelCall) : Cpu :=
  match call.yieldPoint s.kernel with
  | some k₀ => s.switch K k₀
  | none => { s with kernel := call.apply K s.kernel }

theorem calls_kernel {K : KernelLayout} (cpu : Cpu) (call : KernelCall) : (cpu.calls K call).kernel = call.apply K cpu.kernel := by
  unfold Cpu.calls
  cases hy : call.yieldPoint cpu.kernel with
  | none => rfl
  | some k₀ => exact (apply_yieldPoint hy).symm

/-- The STI is the one of the idle loop. -/
def step (K : KernelLayout) (s : Cpu) : CpuStep → Option Cpu
  | .irq => if s.iflag then some s.enterGate else none
  | .int80 => if s.userMode then some s.enterGate else none
  | .iret =>
    match s.saved with
    | [] => none
    | b :: rest => some (s.leaveGate b rest)
  | .sti => if s.saved = [] ∧ s.kernel.current = some idleSlot then some { s with iflag := true } else none
  | .call call => if s.mayCall call then some (s.calls K call) else none

theorem step_cases {K : KernelLayout} {s s' : Cpu} {a : CpuStep} (h : step K s a = some s') :
    (a = .irq ∧ s.iflag = true ∧ s' = s.enterGate) ∨
    (a = .int80 ∧ s.userMode = true ∧ s' = s.enterGate) ∨
    (a = .iret ∧ ∃ b rest, s.saved = b :: rest ∧ s' = s.leaveGate b rest) ∨
    (a = .sti ∧ s.saved = [] ∧ s.kernel.current = some 0 ∧ s' = { s with iflag := true }) ∨
    ∃ call, a = .call call ∧ s.mayCall call = true ∧ s' = s.calls K call := by
  cases a with
  | irq =>
    rw [step,Option.ite_none_right_eq_some,Option.some_inj] at h
    exact Or.inl ⟨rfl,h.1,h.2.symm⟩
  | int80 =>
    rw [step,Option.ite_none_right_eq_some,Option.some_inj] at h
    exact Or.inr (Or.inl ⟨rfl,h.1,h.2.symm⟩)
  | iret =>
    rw [step] at h
    split at h
    · cases h
    · rename_i b rest hs
      exact Or.inr (Or.inr (Or.inl ⟨rfl,b,rest,hs,(Option.some.inj h).symm⟩))
  | sti =>
    rw [step,Option.ite_none_right_eq_some,Option.some_inj] at h
    exact Or.inr (Or.inr (Or.inr (Or.inl ⟨rfl,h.1.1,h.1.2,h.2.symm⟩)))
  | call call =>
    rw [step,Option.ite_none_right_eq_some,Option.some_inj] at h
    exact Or.inr (Or.inr (Or.inr (Or.inr ⟨call,rfl,h.1,h.2.symm⟩)))

def run (K : KernelLayout) (s : Cpu) : List CpuStep → Option Cpu
  | [] => some s
  | a :: steps => (step K s a).bind (fun s' => run K s' steps)

/-- In the run of `steps` there is a call that enters `process_yield` in state `k₀`. -/
def Switches (K : KernelLayout) (s₀ : Cpu) (steps : List CpuStep) (s : Cpu) (k₀ : Kernel) : Prop :=
  ∃ pre call post, steps = pre++.call call :: post ∧ run K s₀ pre = some s ∧ s.mayCall call = true ∧
    call.yieldPoint s.kernel = some k₀

/-- The resumed context has the IF it had when it called `process_yield`; a new kernel thread has IF set. -/
def KeepsFlag (K : KernelLayout) (s : Cpu) (k₀ : Kernel) : Prop :=
  match s.recorded (nextSlot k₀) with
  | some b => (s.switch K k₀).iflag = b
  | none => (k₀.table (nextSlot k₀)).isUser = false → (s.switch K k₀).iflag = true

/-- Either both contexts are inside a gate or neither is; a new user process may follow anybody. -/
def Matched (s : Cpu) (k₀ : Kernel) : Prop :=
  (s.recorded (nextSlot k₀) = none ∧ (k₀.table (nextSlot k₀)).isUser = true) ∨
    (s.saved = [] ↔ s.frames (some (nextSlot k₀)) = [])

/-! ## Runs of matched switches -/

/-- IF is set exactly outside of the gates, of which no context has entered two. -/
structure FlagInv (s : Cpu) : Prop where
  owned : StacksOwned s.kernel
  flag : s.iflag = true ↔ s.saved = []
  shallow : ∀ o, s.frames o = [] ∨ s.frames o = [true]
  suspended : ∀ i b, s.kernel.current ≠ some i → s.yielded i = some b → (b = true ↔ s.frames (some i) = [])
  fresh : ∀ i, s.kernel.current ≠ some i → s.yielded i = none → s.frames (some i) = []

theorem flagInv_boot (K : KernelLayout) (mach : Machine) (old : Slot → Proc) : FlagInv (boot K mach old) := by
  refine ⟨stacksOwned_processInit K mach old,iff_of_true rfl rfl,fun _ => Or.inl rfl,?_,fun _ _ _ => rfl⟩
  intro i b _ hb
  cases hb

section FlagInv
variable {K : KernelLayout} {s s' : Cpu} {k₀ : Kernel} {call : KernelCall}

theorem FlagInv.saved_current (h : FlagInv s) {c : Slot} (hc : s.kernel.current = some c) :
    s.frames (some c) = s.saved := by
  unfold Cpu.saved
  rw [h.owned.onStack,hc]

theorem recorded_other {i : Slot} (hi : s.kernel.current ≠ some i) : s.recorded i = s.yielded i := by
  unfold Cpu.recorded
  cases hc : s.kernel.current with
  | none => rfl
  | some c =>
    refine Function.update_of_ne ?_ _ _
    rintro rfl
    exact hi hc

theorem recorded_current {c : Slot} (hc : s.kernel.current = some c) : s.recorded c = some s.iflag := by
  unfold Cpu.recorded
  rw [hc]
  exact Function.update_self _ _ _

theorem recorded_none {i : Slot} (h : s.recorded i = none) : s.kernel.current ≠ some i ∧ s.yielded i = none := by
  have hi : s.kernel.current ≠ some i := by
    intro hc
    rw [recorded_current hc] at h
    cases h
  exact ⟨hi,by rw [← recorded_other hi]; exact h⟩

theorem FlagInv.recorded_some (h : FlagInv s) {i : Slot} {b : Bool} (hb : s.recorded i = some b) :
    b = true ↔ s.frames (some i) = [] := by
  by_cases hi : s.kernel.current = some i
  · rw [recorded_current hi] at hb
    cases hb
    rw [h.saved_current hi]
    exact h.flag
  · rw [recorded_other hi] at hb
    exact h.suspended i b hi hb

theorem FlagInv.recorded_none (h : FlagInv s) {i : Slot} (hi : s.recorded i = none) : s.frames (some i) = [] := by
  obtain ⟨h1,h2⟩ := InterruptFlag.recorded_none hi
  exact h.fresh i h1 h2

theorem switch_started {n : Slot} (hn : nextSlot k₀ = n) {b : Bool} (hb : s.recorded n = some b) :
    (s.switch K k₀).iflag = s.iflag := by
  unfold Cpu.switch
  dsimp only
  rw [hn,hb,if_neg]
  rintro ⟨hf,_⟩
  cases hf

theorem switch_kernel_thread (hu : (k₀.table (nextSlot k₀)).isUser = false) : (s.switch K k₀).iflag = s.iflag := by
  unfold Cpu.switch
  dsimp only
  rw [hu,if_neg]
  rintro ⟨_,hf⟩
  cases hf

theorem switch_new_user (hn : s.recorded (nextSlot k₀) = none) (hu : (k₀.table (nextSlot k₀)).isUser = true) :
    (s.switch K k₀).iflag = true := by
  unfold Cpu.switch
  exact if_pos ⟨hn,hu⟩

/-- The resumed context has the IF of the caller. -/
theorem FlagInv.keeps_iff (h : FlagInv s) : KeepsFlag K s k₀ ↔ Matched s k₀ := by
  unfold KeepsFlag Matched
  cases hr : s.recorded (nextSlot k₀) with
  | some b =>
    dsimp only
    rw [switch_started rfl hr,Bool.eq_iff_iff,h.flag,h.recorded_some hr]
    exact ⟨Or.inr,fun hm => hm.resolve_left fun hf => (nomatch hf.1)⟩
  | none =>
    dsimp only
    have hframes := h.recorded_none hr
    cases hu : (k₀.table (nextSlot k₀)).isUser with
    | true => exact iff_of_true (fun hf => (nomatch hf)) (Or.inl ⟨rfl,rfl⟩)
    | false =>
      rw [switch_kernel_thread hu,h.flag,hframes]
      constructor
      · intro hs
        exact Or.inr (iff_of_true (hs rfl) rfl)
      · rintro (hf | hf) _
        · cases hf.2
        · exact hf.mpr rfl

theorem FlagInv.switch (h : FlagInv s) (hy : call.yieldPoint s.kernel = some k₀) (hm : Matched s k₀) :
    FlagInv (s.switch K k₀) := by
  have howned : StacksOwned (processYield K k₀) := (h.owned.restate (restated_yieldPoint h.owned hy)).yield K
  have hsaved : (s.switch K k₀).saved = s.frames (some (nextSlot k₀)) := by
    unfold Cpu.saved
    change s.frames (processYield K k₀).esp.owner = _
    rw [howned.onStack,processYield_current]
  refine ⟨howned,?_,h.shallow,?_,?_⟩
  · rw [hsaved]
    rcases hm with ⟨hn,hu⟩ | hm
    · exact iff_of_true (switch_new_user hn hu) (h.recorded_none hn)
    · cases hr : s.recorded (nextSlot k₀) with
      | some b =>
        rw [switch_started rfl hr,h.flag]
        exact hm
      | none =>
        cases hu : (k₀.table (nextSlot k₀)).isUser with
        | true => exact iff_of_true (switch_new_user hr hu) (h.recorded_none hr)
        | false =>
          rw [switch_kernel_thread hu,h.flag]
          exact hm
  · intro i b _ hb
    exact h.recorded_some hb
  · intro i _ hi
    exact h.recorded_none hi

/-- A gate is entered and left on the running stack only. -/
theorem enterGate_other (hs : StacksOwned s.kernel) {i : Slot} (hi : s.kernel.current ≠ some i) :
    s.enterGate.frames (some i) = s.frames (some i) := by
  refine Function.update_of_ne ?_ _ _
  rw [hs.onStack]
  exact fun he => hi he.symm

theorem leaveGate_other (hs : StacksOwned s.kernel) {i : Slot} (hi : s.kernel.current ≠ some i) {b : Bool}
    {rest : List Bool} : (s.leaveGate b rest).frames (some i) = s.frames (some i) := by
  refine Function.update_of_ne ?_ _ _
  rw [hs.onStack]
  exact fun he => hi he.symm

theorem FlagInv.enterGate (h : FlagInv s) (hs : s.iflag = true) : FlagInv s.enterGate := by
  have htop : s.enterGate.saved = [true] := by
    unfold Cpu.saved Cpu.enterGate
    dsimp only
    rw [Function.update_self,hs,h.flag.mp hs]
  refine ⟨h.owned,?_,?_,?_,?_⟩
  · rw [htop]
    exact iff_of_false (fun hf => (nomatch hf)) (fun hf => (nomatch hf))
  · intro o
    by_cases ho : o = s.kernel.esp.owner
    · exact Or.inr (ho ▸ htop)
    · rw [show s.enterGate.frames o = s.frames o from Function.update_of_ne ho _ _]
      exact h.shallow o
  · intro i b hi hb
    rw [enterGate_other h.owned hi]
    exact h.suspended i b hi hb
  · intro i hi hn
    rw [enterGate_other h.owned hi]
    exact h.fresh i hi hn

theorem FlagInv.leaveGate (h : FlagInv s) {b : Bool} {rest : List Bool} (hs : s.saved = b :: rest) :
    FlagInv (s.leaveGate b rest) := by
  obtain ⟨rfl,rfl⟩ : b = true ∧ rest = [] := by
    rcases h.shallow s.kernel.esp.owner with he | he
    · rw [Cpu.saved,he] at hs
      cases hs
    · rw [Cpu.saved,he] at hs
      cases hs
      exact ⟨rfl,rfl⟩
  have htop : (s.leaveGate true []).saved = [] := Function.update_self _ _ _
  refine ⟨h.owned,iff_of_true rfl htop,?_,?_,?_⟩
  · intro o
    by_cases ho : o = s.kernel.esp.owner
    · exact Or.inl (ho ▸ htop)
    · rw [show (s.leaveGate true []).frames o = s.frames o from Function.update_of_ne ho _ _]
      exact h.shallow o
  · intro i b hi hb
    rw [leaveGate_other h.owned hi]
    exact h.suspended i b hi hb
  · intro i hi hn
    rw [leaveGate_other h.owned hi]
    exact h.fresh i hi hn

theorem FlagInv.userMode (h : FlagInv s) (hu : s.userMode = true) : s.iflag = true := by
  unfold Cpu.userMode at hu
  rw [Bool.and_eq_true,decide_eq_true_iff] at hu
  exact h.flag.mpr hu.1

theorem FlagInv.calls (h : FlagInv s) (hm : ∀ k₀, call.yieldPoint s.kernel = some k₀ → Matched s k₀) :
    FlagInv (s.calls K call) := by
  unfold Cpu.calls
  cases hy : call.yieldPoint s.kernel with
  | some k₀ => exact h.switch hy (hm k₀ hy)
  | none =>
    obtain ⟨hcur,hesp⟩ := apply_stays (K := K) hy
    have hsaved : ({ s with kernel := call.apply K s.kernel } : Cpu).saved = s.saved := by
      unfold Cpu.saved
      dsimp only
      rw [hesp]
    refine ⟨h.owned.apply K call,?_,h.shallow,?_,?_⟩
    · rw [hsaved]
      exact h.flag
    · intro i b hi hb
      exact h.suspended i b (hcur ▸ hi) hb
    · intro i hi hn
      exact h.fresh i (hcur ▸ hi) hn

theorem FlagInv.step (h : FlagInv s) {a : CpuStep} (hstep : step K s a = some s')
    (hm : ∀ call k₀, a = .call call → s.mayCall call = true → call.yieldPoint s.kernel = some k₀ → Matched s k₀) :
    FlagInv s' := by
  rcases step_cases hstep with ⟨_,hi,rfl⟩ | ⟨_,hu,rfl⟩ | ⟨_,b,rest,hs,rfl⟩ | ⟨_,hs,_,rfl⟩ | ⟨call,ha,hmay,rfl⟩
  · exact h.enterGate hi
  · exact h.enterGate (h.userMode hu)
  · exact h.leaveGate hs
  · exact ⟨h.owned,iff_of_true rfl hs,h.shallow,h.suspended,h.fresh⟩
  · exact h.calls fun k₀ hy => hm call k₀ ha hmay hy

end FlagInv

theorem run_snoc {K : KernelLayout} {s₀ s' : Cpu} {pre : List CpuStep} {a : CpuStep}
    (h : run K s₀ (pre++[a]) = some s') : ∃ s, run K s₀ pre = some s ∧ step K s a = some s' := by
  induction pre generalizing s₀ with
  | nil =>
    obtain ⟨s₁,h1,h2⟩ := Option.bind_eq_some_iff.mp h
    cases h2
    exact ⟨s₀,rfl,h1⟩
  | cons b pre ih =>
    obtain ⟨s₁,h1,h2⟩ := Option.bind_eq_some_iff.mp h
    obtain ⟨s,h3,h4⟩ := ih h2
    exact ⟨s,Option.bind_eq_some_iff.mpr ⟨s₁,h1,h3⟩,h4⟩

/-- As long as every switch was matched, the flag tells whether the running context is inside a gate. -/
theorem flagInv_run {K : KernelLayout} {s₀ : Cpu} (h₀ : FlagInv s₀) (pre : List CpuStep) {s : Cpu}
    (h : run K s₀ pre = some s) (hm : ∀ s k₀, Switches K s₀ pre s k₀ → Matched s k₀) : FlagInv s := by
  induction pre using List.reverseRecOn generalizing s with
  | nil =>
    cases h
    exact h₀
  | append_singleton pre a ih =>
    obtain ⟨s₁,h1,h2⟩ := run_snoc h
    have hinv : FlagInv s₁ := by
      apply ih h1
      rintro s₂ k₀ ⟨p,call,post,he,hrun,hmay,hy⟩
      exact hm s₂ k₀ ⟨p,call,post++[a],by rw [he,List.append_assoc]; rfl,hrun,hmay,hy⟩
    refine hinv.step h2 ?_
    rintro call k₀ rfl hmay hy
    exact hm s₁ k₀ ⟨pre,call,[],rfl,h1,hmay,hy⟩

/-- In every run, all contexts are resumed with their IF and all kernel threads begin with IF set if and only if
every switch goes between two contexts inside a gate or two outside. -/
theorem flag_kept_iff (K : KernelLayout) (mach : Machine) (old : Slot → Proc) (steps : List CpuStep) :
    (∀ s k₀, Switches K (boot K mach old) steps s k₀ → KeepsFlag K s k₀) ↔
      ∀ s k₀, Switches K (boot K mach old) steps s k₀ → Matched s k₀ := by
  have hboot := flagInv_boot K mach old
  constructor
  · intro h
    -- the switches of a prefix are matched by induction, which makes the next one matched
    have hpre : ∀ pre, pre <+: steps → ∀ s k₀, Switches K (boot K mach old) pre s k₀ → Matched s k₀ := by
      intro pre
      induction pre using List.reverseRecOn with
      | nil =>
        rintro _ s k₀ ⟨p,call,post,he,_⟩
        cases p <;> cases he
      | append_singleton pre a ih =>
        intro hle s k₀ hsw
        have ih' := ih ((List.prefix_append pre [a]).trans hle)
        obtain ⟨p,call,post,he,hrun,hmay,hy⟩ := hsw
        rcases List.eq_nil_or_concat post with rfl | ⟨post',z,rfl⟩
        · obtain ⟨rfl,_⟩ := List.append_inj' he rfl
          obtain ⟨rest,hrest⟩ := hle
          have hall : Switches K (boot K mach old) steps s k₀ :=
            ⟨pre,call,rest,by rw [← hrest,he,List.append_assoc]; rfl,hrun,hmay,hy⟩
          exact (flagInv_run hboot pre hrun ih').keeps_iff.mp (h s k₀ hall)
        · refine ih' s k₀ ⟨p,call,post',?_,hrun,hmay,hy⟩
          rw [List.concat_eq_append,← List.cons_append,← List.append_assoc] at he
          exact (List.append_inj' he rfl).1
    exact hpre steps (List.prefix_refl steps)
  · intro h s k₀ hsw
    obtain ⟨pre,call,post,he,hrun,hmay,hy⟩ := hsw
    have hinv : FlagInv s := by
      apply flagInv_run hboot pre hrun
      rintro s₂ k₁ ⟨p,call',post',he',hrest⟩
      exact h s₂ k₁ ⟨p,call',post'++.call call :: post,by rw [he,he',List.append_assoc]; rfl,hrest⟩
    exact hinv.keeps_iff.mpr (h s k₀ ⟨pre,call,post,he,hrun,hmay,hy⟩)

/-! ## A thread started by the timer -/

def bootedCpu : Cpu := ⟨Exec.bootedKernel,true,fun _ => [],fun _ => none⟩

/-- The shell makes a thread and yields to the idle process, which the timer interrupts. -/
def toThread : List CpuStep := [.call .create,.call .yield,.irq]

/-- The timer handler switches to the thread, which yields back; the idle process leaves the handler. -/
def toIdle : List CpuStep := toThread++[.call .yield,.call .yield,.iret]

theorem thread_runs_masked : (∃ mach old, bootedCpu = boot sampleLayout mach old) ∧
    (∃ s k₀, Switches sampleLayout bootedCpu (toIdle++[.call .yield]) s k₀ ∧ s.recorded (nextSlot k₀) = none ∧
      (k₀.table (nextSlot k₀)).isUser = false ∧ (s.switch sampleLayout k₀).iflag = false) ∧
    ∃ s k₀, Switches sampleLayout bootedCpu (toIdle++[.call .yield]) s k₀ ∧
      s.recorded (nextSlot k₀) = some false ∧ (s.switch sampleLayout k₀).iflag = true := by
  refine ⟨⟨bootedSystem.mach,fun _ => ⟨⟨none,0⟩,0,.unused,0,false,0,0⟩,rfl⟩,?_,?_⟩
  · exact ⟨_,_,⟨toThread,.yield,_,rfl,rfl,rfl,rfl⟩,rfl,rfl,rfl⟩
  · exact ⟨_,_,⟨toIdle,.yield,[],rfl,rfl,rfl,rfl⟩,rfl,rfl⟩

end VesperOS.InterruptFlag
