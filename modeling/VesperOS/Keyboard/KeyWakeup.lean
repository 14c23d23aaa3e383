import VesperOS.Keyboard.KeyboardDriver

/-! # Wake-ups of the keyboard

A process finds the ring buffer empty and two statements later marks itself BLOCKED;
a key in between is stored and wakes nobody. A process that has found a character and
is switched out before it takes it may take one that another process took already,
which moves `kb_head` past `kb_tail`. Where neither happens, every process BLOCKED in
`keyboard_getchar` waits for an empty buffer.
-/
namespace VesperOS.KeyWakeup
open Paging ProcessTable Scheduler ContextSwitch InterruptFlag KeyboardDriver SpaceLifecycle

/-- No process is BLOCKED inside `keyboard_getchar` while the ring buffer holds a character. -/
def NoLostKey (s : KeySystem) : Prop :=
  ∀ r w, s.code (some r) = some w → (s.cpu.kernel.table r).state = .blocked → s.kb.head = s.kb.tail

/-- The buffer was found empty, and the process has not marked itself yet. -/
def goingToBlock : GetcharPc → Bool
  | .current | .mark => true
  | _ => false

/-- A character was found, and the process has not taken it yet. -/
def taking : GetcharPc → Bool
  | .take | .advance _ => true
  | _ => false

/-- No key is pushed while somebody is going to block, and the timer does not switch away from who takes a character. -/
def Undisturbed (s : KeySystem) : KeyStep → Prop
  | .key scancode => (keyboardIrqHandler scancode s.kb).2 = true →
      ∀ o w, s.code o = some w → goingToBlock w.pc = false
  | .cpu (.call .yield) => ∀ w, s.code s.here = some w → taking w.pc = false
  | _ => True

/-- What the result of its test tells a context of the buffer. -/
def PcFacts (kb : Keyboard) : GetcharPc → Prop
  | .current | .mark => kb.head = kb.tail
  | .take | .advance _ => kb.head ≠ kb.tail
  | _ => True

structure Orderly (s : KeySystem) : Prop where
  owned : StacksOwned s.cpu.kernel
  facts : ∀ o w, s.code o = some w → PcFacts s.kb w.pc
  alone : ∀ o w, s.code o = some w → taking w.pc = true → o = s.here
  blocked : NoLostKey s
  marked : ∀ c, s.cpu.kernel.current = some c → (s.cpu.kernel.table c).state = .blocked →
    ∃ w, s.code (some c) = some w ∧ w.pc = .yield

theorem orderly_boot (K : KernelLayout) (mach : Machine) (old : Slot → Proc) (kb : Keyboard) :
    Orderly (KeyboardDriver.boot K mach old kb) := by
  refine ⟨stacksOwned_processInit K mach old,?_,?_,?_,?_⟩
  · intro o w hc
    cases hc
  · intro o w hc
    cases hc
  · intro r w hc
    cases hc
  · intro c hc
    have hnone : (KeyboardDriver.boot K mach old kb).cpu.kernel.current = none := processInit_current K mach old
    rw [hnone] at hc
    cases hc

/-! ## Keys -/

/-- A push leaves a buffer that is not empty so. -/
theorem kbPush_ne (c : UInt8) {kb : Keyboard} (h : kb.head ≠ kb.tail) : (kbPush c kb).head ≠ (kbPush c kb).tail := by
  unfold kbPush
  dsimp only
  split
  · case isTrue hne => exact fun he => hne he.symm
  · exact h

/-- The handler changes the indices of the buffer by at most one push. -/
theorem handler_cases (scancode : UInt8) (kb : Keyboard) :
    ((keyboardIrqHandler scancode kb).2 = false ∧ (keyboardIrqHandler scancode kb).1.head = kb.head ∧
      (keyboardIrqHandler scancode kb).1.tail = kb.tail) ∨
    ((keyboardIrqHandler scancode kb).2 = true ∧ ∃ c kb', kb'.head = kb.head ∧ kb'.tail = kb.tail ∧
      (keyboardIrqHandler scancode kb).1 = kbPush c kb') := by
  unfold keyboardIrqHandler
  dsimp only
  generalize (if kb.shiftPressed = true then scancodeAsciiShift else scancodeAscii) = table
  split
  · exact Or.inl ⟨rfl,rfl,rfl⟩
  split
  · split
    · split
      · exact Or.inr ⟨rfl,_,{ kb with extendedCode := false },rfl,rfl,rfl⟩
      · exact Or.inl ⟨rfl,rfl,rfl⟩
    · exact Or.inl ⟨rfl,rfl,rfl⟩
  split
  · split <;> exact Or.inl ⟨rfl,rfl,rfl⟩
  split
  · exact Or.inl ⟨rfl,rfl,rfl⟩
  split
  · split
    · exact Or.inr ⟨rfl,_,kb,rfl,rfl,rfl⟩
    · exact Or.inl ⟨rfl,rfl,rfl⟩
  · exact Or.inl ⟨rfl,rfl,rfl⟩

section Steps
variable {K : KernelLayout} {s s' : KeySystem}

theorem Orderly.here_eq (h : Orderly s) : s.here = s.cpu.kernel.current := h.owned.onStack

theorem pcFacts_congr {kb kb' : Keyboard} (hh : kb'.head = kb.head) (ht : kb'.tail = kb.tail) {pc : GetcharPc}
    (h : PcFacts kb pc) : PcFacts kb' pc := by
  unfold PcFacts at *
  rw [hh,ht]
  exact h

theorem Orderly.key (h : Orderly s) {scancode : UInt8} (hu : Undisturbed s (.key scancode)) :
    Orderly (s.key scancode) := by
  unfold KeySystem.key
  dsimp only
  rcases handler_cases scancode s.kb with ⟨hno,hh,ht⟩ | ⟨hyes,c,kb',hh,ht,hkb⟩
  · rw [hno,if_neg (by decide)]
    refine ⟨h.owned,?_,h.alone,?_,h.marked⟩
    · intro o w hc
      exact pcFacts_congr hh ht (h.facts o w hc)
    · intro r w hc hb
      change (keyboardIrqHandler scancode s.kb).1.head = (keyboardIrqHandler scancode s.kb).1.tail
      rw [hh,ht]
      exact h.blocked r w hc hb
  · rw [hyes,if_pos rfl,hkb]
    refine ⟨h.owned.restate (restated_wakeAllBlocked _),?_,h.alone,?_,?_⟩
    · intro o w hc
      have hf := h.facts o w hc
      have hwait : goingToBlock w.pc = false := hu hyes o w hc
      have hpush : s.kb.head ≠ s.kb.tail → (kbPush c kb').head ≠ (kbPush c kb').tail := by
        intro hne
        apply kbPush_ne
        rw [hh,ht]
        exact hne
      cases hpc : w.pc with
      | current | mark =>
        rw [hpc] at hwait
        cases hwait
      | take | advance =>
        rw [hpc] at hf
        exact hpush hf
      | test | yield | hlt => trivial
    · intro r w _ hb
      exact absurd hb (wakeAllBlocked_state _ r)
    · intro c' _ hb
      exact absurd hb (wakeAllBlocked_state _ c')

/-! ## Statements -/

theorem Orderly.not_blocked (h : Orderly s) {w : Waiting} (hcode : s.code s.here = some w) (hy : w.pc ≠ .yield)
    {c : Slot} (hc : s.cpu.kernel.current = some c) : (s.cpu.kernel.table c).state ≠ .blocked := by
  intro hb
  obtain ⟨w',hcode',hpc⟩ := h.marked c hc hb
  rw [← hc,← h.here_eq,hcode] at hcode'
  cases hcode'
  exact hy hpc

/-- The running context moves on inside the function. -/
theorem Orderly.goto (h : Orderly s) {w : Waiting} (hcode : s.code s.here = some w) (hy : w.pc ≠ .yield)
    {pc : GetcharPc} (hfacts : PcFacts s.kb pc) : Orderly (s.goto w pc) := by
  have hself : (s.goto w pc).code s.here = some { w with pc := pc } := Function.update_self _ _ _
  have hother : ∀ {o}, o ≠ s.here → (s.goto w pc).code o = s.code o := fun ho => Function.update_of_ne ho _ _
  refine ⟨h.owned,?_,?_,?_,?_⟩
  · intro o w' hc
    by_cases ho : o = s.here
    · rw [ho,hself] at hc
      cases hc
      exact hfacts
    · rw [hother ho] at hc
      exact h.facts o w' hc
  · intro o w' hc hw
    by_contra ho
    rw [hother ho] at hc
    exact ho (h.alone o w' hc hw)
  · intro r w' hc hb
    by_cases ho : some r = s.here
    · exact h.blocked r w (ho ▸ hcode) hb
    · rw [hother ho] at hc
      exact h.blocked r w' hc hb
  · intro c hc hb
    exact absurd hb (h.not_blocked hcode hy hc)

/-- The process marks itself while the buffer is empty. -/
theorem Orderly.mark (h : Orderly s) {w : Waiting} (hcode : s.code s.here = some w) (hpc : w.pc = .mark) :
    Orderly (s.markBlocked.goto w .yield) := by
  have hempty : s.kb.head = s.kb.tail := by
    have hf := h.facts s.here w hcode
    rw [hpc] at hf
    exact hf
  have hmoved : Orderly (s.goto w .yield) := h.goto hcode (by rw [hpc]; decide) trivial
  unfold KeySystem.markBlocked
  cases hc : s.cpu.kernel.current with
  | none => exact hmoved
  | some c =>
    have hhere : s.here = some c := h.here_eq.trans hc
    have hown : (s.goto w .yield).code (some c) = some { w with pc := .yield } := by
      rw [← hhere]
      exact Function.update_self _ _ _
    refine ⟨h.owned.restate (restated_setState (h.owned.used c hc) (by decide) (by decide)),hmoved.facts,
      hmoved.alone,?_,?_⟩
    · intro r w' _ _
      exact hempty
    · intro c' hc' _
      cases hc.symm.trans hc'
      exact ⟨_,hown,rfl⟩

/-- A switch while nobody takes a character. -/
theorem orderly_yields {cpu : Cpu} {code : Option Slot → Option Waiting} {k₀ : Kernel}
    (hk : cpu.kernel = processYield K k₀) (howned : StacksOwned cpu.kernel)
    (hfacts : ∀ o w, code o = some w → PcFacts s.kb w.pc)
    (hblocked : ∀ r w, code (some r) = some w → (cpu.kernel.table r).state = .blocked → s.kb.head = s.kb.tail)
    (hwin : ∀ o w, code o = some w → taking w.pc = false) : Orderly { s with cpu := cpu, code := code } := by
  refine ⟨howned,hfacts,?_,hblocked,?_⟩
  · intro o w hc hw
    rw [hwin o w hc] at hw
    cases hw
  · intro c hc hb
    dsimp only at hc hb
    rw [hk] at hc hb
    rw [processYield_running hc] at hb
    cases hb

theorem Orderly.nobody_taking (h : Orderly s) (hwin : ∀ w, s.code s.here = some w → taking w.pc = false)
    {o : Option Slot} {w : Waiting} (hc : s.code o = some w) : taking w.pc = false := by
  by_contra hw
  rw [Bool.not_eq_false] at hw
  have ho := h.alone o w hc hw
  rw [ho] at hc
  rw [hwin w hc] at hw
  cases hw

theorem Orderly.yieldStmt (h : Orderly s) {w : Waiting} (hcode : s.code s.here = some w) (hpc : w.pc = .yield) :
    Orderly { s.goto w .test with cpu := s.cpu.switch K s.cpu.kernel } := by
  have hwin : ∀ w', s.code s.here = some w' → taking w'.pc = false := by
    intro w' hc
    cases hcode.symm.trans hc
    rw [hpc]
    rfl
  have hcases : ∀ {o w'}, (s.goto w .test).code o = some w' → w'.pc = .test ∧ o = s.here ∨ s.code o = some w' := by
    intro o w' hc
    by_cases ho : o = s.here
    · left
      rw [ho] at hc
      have hself : (s.goto w .test).code s.here = some { w with pc := .test } := Function.update_self _ _ _
      cases hself.symm.trans hc
      exact ⟨rfl,ho⟩
    · have hsame : (s.goto w .test).code o = s.code o := Function.update_of_ne ho _ _
      exact Or.inr (hsame.symm.trans hc)
  have hkernel : (s.cpu.switch K s.cpu.kernel).kernel = processYield K s.cpu.kernel := rfl
  apply orderly_yields hkernel (h.owned.yield K)
  · intro o w' hc
    rcases hcases hc with ⟨ht,-⟩ | hc
    · rw [ht]
      trivial
    · exact h.facts o w' hc
  · intro r w' hc hb
    have hbefore : (s.cpu.kernel.table r).state = .blocked := state_of_yield hb (by decide)
    rcases hcases hc with ⟨-,ho⟩ | hc
    · exact h.blocked r w (ho ▸ hcode) hbefore
    · exact h.blocked r w' hc hbefore
  · intro o w' hc
    rcases hcases hc with ⟨ht,-⟩ | hc
    · rw [ht]
      rfl
    · exact h.nobody_taking hwin hc

/-- Taking the character: with a buffer that is not empty nobody was BLOCKED. -/
theorem Orderly.advance (h : Orderly s) {w : Waiting} {c : UInt8} (hcode : s.code s.here = some w)
    (hpc : w.pc = .advance c) {kb : Keyboard} {returned : Option Slot → Option UInt8} :
    Orderly ⟨s.cpu,kb,Function.update s.code s.here none,returned⟩ := by
  have hne : s.kb.head ≠ s.kb.tail := by
    have hf := h.facts s.here w hcode
    rw [hpc] at hf
    exact hf
  have hother : ∀ {o w'}, Function.update s.code s.here none o = some w' → o ≠ s.here ∧ s.code o = some w' := by
    intro o w' hc
    by_cases ho : o = s.here
    · rw [ho,Function.update_self] at hc
      cases hc
    · rw [Function.update_of_ne ho] at hc
      exact ⟨ho,hc⟩
  refine ⟨h.owned,?_,?_,?_,?_⟩
  · intro o w' hc
    obtain ⟨ho,hc⟩ := hother hc
    have hf := h.facts o w' hc
    -- nobody else can be in the middle of something: the buffer is not empty, and only one context takes
    cases hpc' : w'.pc with
    | current | mark =>
      rw [hpc'] at hf
      exact absurd hf hne
    | take | advance => exact absurd (h.alone o w' hc (by rw [hpc']; rfl)) ho
    | test | yield | hlt => trivial
  · intro o w' hc hw
    obtain ⟨ho,hc⟩ := hother hc
    exact absurd (h.alone o w' hc hw) ho
  · intro r w' hc hb
    exact absurd (h.blocked r w' (hother hc).2 hb) hne
  · intro c' hc' hb
    exact absurd hb (h.not_blocked hcode (by rw [hpc]; exact fun hf => by cases hf) hc')

theorem Orderly.stmt (h : Orderly s) {w : Waiting} (hcode : s.code s.here = some w) : Orderly (s.stmt K w) := by
  unfold KeySystem.stmt
  cases hpc : w.pc with
  | test =>
    apply h.goto hcode (by rw [hpc]; decide)
    by_cases hz : s.kb.head = s.kb.tail
    · rw [if_pos hz]
      exact hz
    · rw [if_neg hz]
      exact hz
  | current =>
    have hz : s.kb.head = s.kb.tail := by
      have hf := h.facts s.here w hcode
      rw [hpc] at hf
      exact hf
    apply h.goto hcode (by rw [hpc]; decide)
    by_cases hnone : s.cpu.kernel.current = none
    · rw [if_pos hnone]
      trivial
    · rw [if_neg hnone]
      exact hz
  | mark => exact h.mark hcode hpc
  | yield => exact h.yieldStmt hcode hpc
  | hlt => exact h.goto hcode (by rw [hpc]; decide) trivial
  | take =>
    have hne := h.facts s.here w hcode
    rw [hpc] at hne
    exact h.goto hcode (by rw [hpc]; decide) hne
  | advance c => exact h.advance hcode hpc

/-! ## Other steps -/

theorem Orderly.enter (h : Orderly s) (hcode : s.code s.here = none) : Orderly s.enter := by
  have hself : s.enter.code s.here = some ⟨s.cpu.saved.length,.test⟩ := Function.update_self _ _ _
  have hother : ∀ {o}, o ≠ s.here → s.enter.code o = s.code o := fun ho => Function.update_of_ne ho _ _
  -- a context outside of the function has not marked itself
  have hfree : ∀ c, s.cpu.kernel.current = some c → (s.cpu.kernel.table c).state ≠ .blocked := by
    intro c hc hb
    obtain ⟨w,hw,-⟩ := h.marked c hc hb
    rw [← hc,← h.here_eq,hcode] at hw
    cases hw
  refine ⟨h.owned,?_,?_,?_,?_⟩
  · intro o w hc
    by_cases ho : o = s.here
    · rw [ho,hself] at hc
      cases hc
      trivial
    · rw [hother ho] at hc
      exact h.facts o w hc
  · intro o w hc hw
    by_contra ho
    rw [hother ho] at hc
    exact ho (h.alone o w hc hw)
  · intro r w hc hb
    by_cases ho : some r = s.here
    · exact absurd hb (hfree r (h.here_eq.symm.trans ho.symm))
    · rw [hother ho] at hc
      exact h.blocked r w hc hb
  · intro c hc hb
    exact absurd hb (hfree c hc)

/-- A step that stays in the running context and blocks nobody. -/
theorem Orderly.stays (h : Orderly s) {cpu : Cpu} (howned : StacksOwned cpu.kernel)
    (hcur : cpu.kernel.current = s.cpu.kernel.current)
    (hblocked : ∀ r, (cpu.kernel.table r).state = .blocked → (s.cpu.kernel.table r).state = .blocked) :
    Orderly { s with cpu := cpu } := by
  have hhere : ({ s with cpu := cpu } : KeySystem).here = s.here := by
    rw [h.here_eq,← hcur]
    exact howned.onStack
  refine ⟨howned,h.facts,?_,?_,?_⟩
  · intro o w hc hw
    rw [hhere]
    exact h.alone o w hc hw
  · intro r w hc hb
    exact h.blocked r w hc (hblocked r hb)
  · intro c hc hb
    exact h.marked c (hcur ▸ hc) (hblocked c hb)

theorem Orderly.calls (h : Orderly s) {call : KernelCall} (hfree : s.code s.here = none ∨ call = .yield)
    (hu : Undisturbed s (.cpu (.call call))) : Orderly { s with cpu := s.cpu.calls K call } := by
  have hk := @calls_kernel K s.cpu call
  have howned : StacksOwned (s.cpu.calls K call).kernel := hk ▸ h.owned.apply K call
  -- nobody inside the function calls `process_block` here
  have hblocked : ∀ r w, s.code (some r) = some w → ((s.cpu.calls K call).kernel.table r).state = .blocked →
      (s.cpu.kernel.table r).state = .blocked := by
    intro r w hc hb
    rw [hk] at hb
    rcases blocked_apply hb with hb | ⟨hcall,hcur⟩
    · exact hb
    · rw [← hcur,← h.here_eq] at hc
      rcases hfree with hnone | hyield
      · rw [hnone] at hc
        cases hc
      · rw [hyield] at hcall
        cases hcall
  cases hy : call.yieldPoint s.cpu.kernel with
  | none =>
    apply h.stays howned
    · rw [hk]
      exact (apply_stays hy).1
    · intro r hb
      rw [hk] at hb
      rcases blocked_apply hb with hb | ⟨hcall,-⟩
      · exact hb
      · rw [hcall] at hy
        cases hy
  | some k₀ =>
    have hyields : (s.cpu.calls K call).kernel = processYield K k₀ := hk.trans (apply_yieldPoint hy)
    apply orderly_yields hyields howned h.facts
    · intro r w hc hb
      exact h.blocked r w hc (hblocked r w hc hb)
    · intro o w hc
      refine h.nobody_taking ?_ hc
      intro w' hc'
      rcases hfree with hnone | rfl
      · rw [hnone] at hc'
        cases hc'
      · exact hu w' hc'

theorem Orderly.cpuStep (h : Orderly s) {a : CpuStep} {cpu : Cpu} (hmay : s.mayStep a = true)
    (hstep : InterruptFlag.step K s.cpu a = some cpu) (hu : Undisturbed s (.cpu a)) :
    Orderly { s with cpu := cpu } := by
  rcases step_cases hstep with ⟨_,_,rfl⟩ | ⟨_,_,rfl⟩ | ⟨_,b,rest,_,rfl⟩ | ⟨_,_,_,rfl⟩ | ⟨call,rfl,-,rfl⟩
  · exact h.stays h.owned rfl (fun _ hb => hb)
  · exact h.stays h.owned rfl (fun _ hb => hb)
  · exact h.stays h.owned rfl (fun _ hb => hb)
  · exact h.stays h.owned rfl (fun _ hb => hb)
  · apply h.calls _ hu
    unfold KeySystem.mayStep at hmay
    cases hc : s.code s.here with
    | none => exact Or.inl rfl
    | some w =>
      rw [hc] at hmay
      cases call <;> simp [timerStep] at hmay ⊢

theorem Orderly.step (h : Orderly s) {a : KeyStep} (hstep : KeyboardDriver.step K s a = some s')
    (hu : Undisturbed s a) : Orderly s' := by
  cases a with
  | cpu a =>
    rw [KeyboardDriver.step,Option.ite_none_right_eq_some] at hstep
    obtain ⟨hmay,hmap⟩ := hstep
    obtain ⟨cpu,hcpu,rfl⟩ := Option.map_eq_some_iff.mp hmap
    exact h.cpuStep hmay hcpu hu
  | enter =>
    rw [KeyboardDriver.step,Option.ite_none_right_eq_some,Option.some_inj] at hstep
    obtain ⟨hnone,rfl⟩ := hstep
    rw [Bool.and_eq_true,Option.isNone_iff_eq_none] at hnone
    exact h.enter hnone.1
  | stmt =>
    obtain ⟨w,hcode,hw⟩ := Option.bind_eq_some_iff.mp hstep
    rw [Option.ite_none_right_eq_some,Option.some_inj] at hw
    obtain ⟨-,rfl⟩ := hw
    exact h.stmt hcode
  | key scancode =>
    rw [KeyboardDriver.step,Option.ite_none_right_eq_some,Option.some_inj] at hstep
    obtain ⟨-,rfl⟩ := hstep
    exact h.key hu

end Steps

/-! ## Whole runs -/

theorem orderly_of_reached {K : KernelLayout} {mach : Machine} {old : Slot → Proc} {kb : Keyboard} {s : KeySystem}
    (h : Reached K mach old kb Undisturbed s) : Orderly s := by
  induction h with
  | boot => exact orderly_boot K mach old kb
  | step _ hu hstep ih => exact ih.step hstep hu

/-- In every state of a run without the disturbances no process is BLOCKED in `keyboard_getchar` with a key waiting. -/
theorem no_lost_key {K : KernelLayout} {mach : Machine} {old : Slot → Proc} {kb : Keyboard} {s : KeySystem}
    (h : Reached K mach old kb Undisturbed s) : NoLostKey s := (orderly_of_reached h).blocked

/-- A check of `Undisturbed` that can be run. -/
def calm (s : KeySystem) : KeyStep → Bool
  | .key scancode => !(keyboardIrqHandler scancode s.kb).2 || decide (∀ o, (s.code o).all (fun w => !goingToBlock w.pc))
  | .cpu (.call .yield) => (s.code s.here).all (fun w => !taking w.pc)
  | _ => true

theorem undisturbed_of_calm (s : KeySystem) (a : KeyStep) (h : calm s a = true) : Undisturbed s a := by
  have hall : ∀ {test : GetcharPc → Bool} {o : Option Slot}, (s.code o).all (fun w => !test w.pc) = true →
      ∀ w, s.code o = some w → test w.pc = false := by
    intro test o ht w hc
    rw [hc] at ht
    simpa using ht
  unfold calm at h
  unfold Undisturbed
  split at h
  · intro hpush
    rw [hpush,Bool.not_true,Bool.false_or,decide_eq_true_eq] at h
    exact fun o => hall (h o)
  · exact hall h
  · trivial

def bootedKeys : KeySystem := ⟨bootedCpu,⟨fun _ => 0,0,0,false,false⟩,fun _ => none,fun _ => none⟩

theorem reached_bootedKeys (ok : KeySystem → KeyStep → Prop) : ∃ old,
    Reached sampleLayout bootedSystem.mach old ⟨fun _ => 0,0,0,false,false⟩ ok bootedKeys :=
  ⟨fun _ => ⟨⟨none,0⟩,0,.unused,0,false,0,0⟩,.boot⟩

/-- A second thread is made and gets to run; it calls `keyboard_getchar` and finds the buffer empty. -/
def toEmpty : List KeyStep := [.cpu (.call .create),.cpu (.call .yield),.cpu (.call .yield),.enter,.stmt]

/-- Thread `r` is BLOCKED in `keyboard_getchar`, with the given indices of the buffer. -/
def threadWaits (r : Slot) (head tail : ℕ) (s : KeySystem) : Bool :=
  (s.code (some r)).isSome && decide ((s.cpu.kernel.table r).state = .blocked) && decide (s.kb.head = head) &&
    decide (s.kb.tail = tail)

theorem threadWaits_spec {r : Slot} {head tail : ℕ} {s : KeySystem} (h : threadWaits r head tail s = true) :
    (∃ w, s.code (some r) = some w) ∧ (s.cpu.kernel.table r).state = .blocked ∧ s.kb.head = head ∧ s.kb.tail = tail := by
  simp only [threadWaits,Bool.and_eq_true,decide_eq_true_eq] at h
  exact ⟨Option.isSome_iff_exists.mp h.1.1.1,h.1.1.2,h.1.2,h.2⟩

/-- The thread blocks, the key `a` wakes it, it takes the character and blocks again. -/
theorem no_lost_key_woken : ∃ s, NoLostKey s ∧ (∃ w, s.code (some 1) = some w) ∧
    (s.cpu.kernel.table 1).state = .blocked ∧ s.kb.head = 1 ∧ s.kb.tail = 1 := by
  have hrun : (KeyboardDriver.run sampleLayout calm bootedKeys (toEmpty++[.stmt,.stmt,.stmt,.key 0x1E,.cpu (.call .yield),
      .stmt,.stmt,.stmt,.enter,.stmt,.stmt,.stmt])).any (threadWaits 1 1 1) = true := by
    decide +kernel
  obtain ⟨s,hs,hw⟩ := (Option.any_eq_true _ _).mp hrun
  obtain ⟨old,hboot⟩ := reached_bootedKeys Undisturbed
  obtain ⟨hcode,hb,hhead,htail⟩ := threadWaits_spec hw
  exact ⟨s,no_lost_key (hboot.run undisturbed_of_calm hs),hcode,hb,hhead,htail⟩

/-- The key `a` after the test is stored and wakes nobody; then the thread marks itself. -/
theorem key_lost : ∃ old s, Reached sampleLayout bootedSystem.mach old ⟨fun _ => 0,0,0,false,false⟩ (fun _ _ => True) s ∧
    (∃ w, s.code (some 1) = some w) ∧ (s.cpu.kernel.table 1).state = .blocked ∧ s.kb.head = 0 ∧ s.kb.tail = 1 ∧
    ¬ NoLostKey s := by
  have hrun : (KeyboardDriver.run sampleLayout (fun _ _ => true) bootedKeys (toEmpty++[.key 0x1E,.stmt,.stmt])).any
      (threadWaits 1 0 1) = true := by
    decide +kernel
  obtain ⟨s,hs,hw⟩ := (Option.any_eq_true _ _).mp hrun
  obtain ⟨old,hboot⟩ := reached_bootedKeys (fun _ _ => True)
  obtain ⟨⟨w,hcode⟩,hb,hh,ht⟩ := threadWaits_spec hw
  refine ⟨old,s,hboot.run (fun _ _ _ => trivial) hs,⟨w,hcode⟩,hb,hh,ht,?_⟩
  intro h
  have he := h 1 w hcode hb
  rw [hh,ht] at he
  cases he

end VesperOS.KeyWakeup
