import VesperOS.Ipc.PipeStatements
import VesperOS.Ipc.PipeClose

/-! # Lost wake-ups

A reader tests the counter of its pipe, and some statements later marks itself BLOCKED; a
writer wakes only who is BLOCKED. System calls run with IF clear, but a reader that the
idle process resumes runs on with IF set, and the timer may switch to a writer between
its test and its mark. Where no such switch happens, every BLOCKED reader waits on an
open, empty pipe, or somebody is on the way to wake it.
-/
namespace VesperOS.LostWakeup
open RingBuffer Pipes Paging ProcessTable Scheduler ContextSwitch InterruptFlag PipeStatements PipeClose SpaceLifecycle

def reading : PipePc → Bool
  | .readTest _ | .readOpen _ | .readCurrent _ | .readMark _ | .readYield _ | .readMin _ => true
  | .readByte _ _ | .readHead _ _ | .readCount _ _ => true
  | _ => false

/-- From the test that found the pipe empty to the mark, and inside the copy loop. -/
def window : PipePc → Bool
  | .readOpen _ | .readCurrent _ | .readMark _ => true
  | .readByte _ _ | .readHead _ _ | .readCount _ _ => true
  | _ => false

/-- A byte is stored, or the pipe is marked closed, and the wake-up is still to come. -/
def pending : PipePc → Bool
  | .writeTest written _ | .writeByte written _ _ => 0 < written
  | .writeTail _ _ | .writeCount _ _ | .writeWake _ | .closeWake => true
  | _ => false

/-- A context that is not terminated, or still runs, is going to wake the readers of pipe `i`. -/
def WakeComing (s : PipeSystem) (i : PipeId) : Prop :=
  ∃ o act, s.code o = some act ∧ act.pipe = i ∧ pending act.pc = true ∧
    (o = s.here ∨ ∃ w, o = some w ∧ ¬ Zombie s.cpu.kernel w)

/-- No process is BLOCKED inside `pipe_read` of a pipe with bytes or of a closed one, unless the call that stored
the bytes or closed the pipe has yet to wake it. -/
def NoLostWakeup (s : PipeSystem) : Prop :=
  ∀ r act, s.code (some r) = some act → reading act.pc = true → (s.cpu.kernel.table r).state = .blocked →
    ¬ WakeComing s act.pipe → (s.pipes act.pipe).count = 0 ∧ (s.pipes act.pipe).isOpen = true

/-- No switch by the timer in the window of a reader, and nobody is terminated on the way to a wake-up. -/
def Undisturbed (s : PipeSystem) : PipeStep → Prop
  | .cpu (.call .yield) => ∀ act, s.code s.here = some act → window act.pc = false ∧
      (pending act.pc = true → ∀ c, s.here = some c → ¬ Zombie s.cpu.kernel c)
  | .cpu (.call (.kill pid)) => ∀ w act, killSlot pid s.cpu.kernel = some w → s.code (some w) = some act →
      pending act.pc = false
  | _ => True

/-- What a reader in its window knows of the pipe. -/
def PcFacts (p : Pipe) : PipePc → Prop
  | .readOpen _ => p.count = 0
  | .readCurrent _ | .readMark _ => p.count = 0 ∧ p.isOpen = true
  | .readByte rest _ | .readHead rest _ | .readCount rest _ => rest < p.count
  | _ => True

structure Orderly (s : PipeSystem) : Prop where
  owned : StacksOwned s.cpu.kernel
  small : ∀ i, (s.pipes i).count < 2^32
  facts : ∀ o act, s.code o = some act → window act.pc = true → o = s.here ∧ PcFacts (s.pipes act.pipe) act.pc
  blocked : ∀ r act, s.code (some r) = some act → reading act.pc = true →
    (s.cpu.kernel.table r).state = .blocked →
      ((s.pipes act.pipe).count = 0 ∧ (s.pipes act.pipe).isOpen = true) ∨ WakeComing s act.pipe
  marked : ∀ c, s.cpu.kernel.current = some c → (s.cpu.kernel.table c).state = .blocked →
    ∃ act len, s.code (some c) = some act ∧ act.pc = .readYield len

theorem orderly_boot (K : KernelLayout) (mach : Machine) (old : Slot → Proc) :
    Orderly (PipeStatements.boot K mach old) := by
  refine ⟨stacksOwned_processInit K mach old,fun _ => (by decide : 0 < 2^32),?_,?_,?_⟩
  · intro o act hc
    cases hc
  · intro r act hc
    cases hc
  · intro c hc
    have hnone : (PipeStatements.boot K mach old).cpu.kernel.current = none := processInit_current K mach old
    rw [hnone] at hc
    cases hc

section Steps
variable {K : KernelLayout} {s s' : PipeSystem}

theorem Orderly.here_eq (h : Orderly s) : s.here = s.cpu.kernel.current := h.owned.onStack

/-- The running context is BLOCKED only just before it yields. -/
theorem Orderly.not_blocked (h : Orderly s)
    (hpc : ∀ act len, s.code s.here = some act → act.pc ≠ .readYield len) {c : Slot}
    (hc : s.cpu.kernel.current = some c) : (s.cpu.kernel.table c).state ≠ .blocked := by
  intro hb
  obtain ⟨act,len,hcode,hy⟩ := h.marked c hc hb
  rw [← hc,← h.here_eq] at hcode
  exact hpc act len hcode hy

/-- The running context moves on and may change pipes. -/
theorem Orderly.advance (h : Orderly s) {new : Option Activation} {pipes : PipeTable}
    {returned : Option Slot → Option Outcome}
    (hpc : ∀ act len, s.code s.here = some act → act.pc ≠ .readYield len)
    (hsmall : ∀ i, (pipes i).count < 2^32)
    (hpend : ∀ old, s.code s.here = some old → pending old.pc = true →
      ∃ act, new = some act ∧ act.pipe = old.pipe ∧ pending act.pc = true)
    (hpipes : ∀ i, (s.pipes i).count = 0 → (s.pipes i).isOpen = true →
      ((pipes i).count = 0 ∧ (pipes i).isOpen = true) ∨ ∃ act, new = some act ∧ act.pipe = i ∧ pending act.pc = true)
    (hfacts : ∀ act, new = some act → window act.pc = true → PcFacts (pipes act.pipe) act.pc) :
    Orderly ⟨s.cpu,pipes,Function.update s.code s.here new,returned⟩ := by
  have hfree := fun c => h.not_blocked hpc (c := c)
  have hwake : ∀ i act, new = some act → act.pipe = i → pending act.pc = true →
      WakeComing ⟨s.cpu,pipes,Function.update s.code s.here new,returned⟩ i := by
    intro i act hn hi hp
    refine ⟨s.here,act,?_,hi,hp,Or.inl rfl⟩
    dsimp only
    rw [Function.update_self,hn]
  refine ⟨h.owned,hsmall,?_,?_,?_⟩
  · intro o act hc hw
    dsimp only at hc ⊢
    by_cases ho : o = s.here
    · rw [ho,Function.update_self] at hc
      exact ⟨ho,hfacts act hc hw⟩
    · rw [Function.update_of_ne ho] at hc
      exact absurd (h.facts o act hc hw).1 ho
  · intro r act hc hr hb
    dsimp only at hc hb ⊢
    have hne : some r ≠ s.here := by
      intro he
      rw [h.here_eq] at he
      exact hfree r he.symm hb
    rw [Function.update_of_ne hne] at hc
    rcases h.blocked r act hc hr hb with ⟨hz,ho⟩ | ⟨o,old,hold,hi,hp,hlive⟩
    · rcases hpipes act.pipe hz ho with hstill | ⟨act',hn,hi,hp⟩
      · exact Or.inl hstill
      · exact Or.inr (hwake _ act' hn hi hp)
    · right
      by_cases ho : o = s.here
      · rw [ho] at hold
        obtain ⟨act',hn,hi',hp'⟩ := hpend old hold hp
        exact hwake _ act' hn (hi'.trans hi) hp'
      · refine ⟨o,old,?_,hi,hp,hlive⟩
        dsimp only
        rw [Function.update_of_ne ho]
        exact hold
  · intro c hc hb
    exact absurd hb (hfree c hc)

/-- Nobody is BLOCKED after a wake-up. -/
theorem Orderly.wakeAll (h : Orderly s) (result : Outcome) : Orderly (s.wakeAll.leave result) := by
  refine ⟨h.owned.restate (restated_wakeAllBlocked _),h.small,?_,?_,?_⟩
  · intro o act hc hw
    by_cases ho : o = s.here
    · have hcode : (s.wakeAll.leave result).code o = none := by
        rw [ho]
        exact Function.update_self _ _ _
      rw [hcode] at hc
      cases hc
    · have hcode : (s.wakeAll.leave result).code o = s.code o := Function.update_of_ne ho _ _
      rw [hcode] at hc
      exact h.facts o act hc hw
  · intro r act _ _ hb
    exact absurd hb (wakeAllBlocked_state _ r)
  · intro c _ hb
    exact absurd hb (wakeAllBlocked_state _ c)

/-- The reader marks itself on an open, empty pipe. -/
theorem Orderly.mark (h : Orderly s) {act : Activation} {len : ℕ} (hcode : s.code s.here = some act)
    (hpc : act.pc = .readMark len) : Orderly (s.markBlocked.goto act (.readYield len)) := by
  have hempty : (s.pipes act.pipe).count = 0 ∧ (s.pipes act.pipe).isOpen = true := by
    have hf := (h.facts s.here act hcode (by rw [hpc]; rfl)).2
    rw [hpc] at hf
    exact hf
  have hmoved : Orderly (s.goto act (.readYield len)) := by
    refine h.advance ?_ h.small ?_ (fun i hz ho => Or.inl ⟨hz,ho⟩) ?_
    · intro act' len' hc hy
      cases hcode.symm.trans hc
      rw [hpc] at hy
      cases hy
    · intro old hc hp
      cases hcode.symm.trans hc
      rw [hpc] at hp
      cases hp
    · intro act' ha hw
      cases ha
      cases hw
  cases hc : s.cpu.kernel.current with
  | none =>
    unfold PipeSystem.markBlocked
    rw [hc]
    exact hmoved
  | some c =>
    have hhere : s.here = some c := h.here_eq.trans hc
    have hown : (s.goto act (.readYield len)).code (some c) = some { act with pc := .readYield len } := by
      rw [← hhere]
      exact Function.update_self _ _ _
    have hblocked : s.markBlocked.goto act (.readYield len) =
        (s.goto act (.readYield len)).setKernel (s.cpu.kernel.setState c .blocked) := by
      unfold PipeSystem.markBlocked
      rw [hc]
      rfl
    rw [hblocked]
    refine ⟨h.owned.restate (restated_setState (h.owned.used c hc) (by decide) (by decide)),h.small,hmoved.facts,?_,?_⟩
    · intro r act' hr hread hb
      by_cases hrc : r = c
      · subst hrc
        cases hown.symm.trans hr
        exact Or.inl hempty
      · change ((s.cpu.kernel.setState c .blocked).table r).state = .blocked at hb
        rw [setState_table,if_neg hrc] at hb
        rcases hmoved.blocked r act' hr hread hb with hl | ⟨o,old,hold,hi,hp,hlive⟩
        · exact Or.inl hl
        · refine Or.inr ⟨o,old,hold,hi,hp,?_⟩
          rcases hlive with ho | ⟨w,ho,hz⟩
          · exact Or.inl ho
          · refine Or.inr ⟨w,ho,?_⟩
            intro hz'
            change ((s.cpu.kernel.setState c .blocked).table w).state = .zombie at hz'
            rw [setState_table] at hz'
            split at hz'
            · cases hz'
            · exact hz hz'
    · intro c' hc' _
      cases hc.symm.trans hc'
      exact ⟨_,len,hown,rfl⟩

/-- A switch away from a context that is neither in its window nor terminated before a wake-up. -/
theorem Orderly.yields (h : Orderly s) {cpu : Cpu} {k₀ : Kernel} (hk : cpu.kernel = processYield K k₀)
    (hr : Restated s.cpu.kernel k₀)
    (hblocked : ∀ r act, s.code (some r) = some act → (k₀.table r).state = .blocked →
      (s.cpu.kernel.table r).state = .blocked)
    (hzombie : ∀ w act, s.code (some w) = some act → Zombie k₀ w → Zombie s.cpu.kernel w)
    (hwin : ∀ act, s.code s.here = some act → window act.pc = false)
    (hpend : ∀ act, s.code s.here = some act → pending act.pc = true →
      ∃ c, s.here = some c ∧ ¬ Zombie s.cpu.kernel c) : Orderly { s with cpu := cpu } := by
  have hnowin : ∀ o act, s.code o = some act → window act.pc = true → False := by
    intro o act hc hw
    have ho := (h.facts o act hc hw).1
    rw [ho] at hc
    rw [hwin act hc] at hw
    cases hw
  have howned : StacksOwned (processYield K k₀) := (h.owned.restate hr).yield K
  refine ⟨?_,h.small,?_,?_,?_⟩
  · dsimp only
    rw [hk]
    exact howned
  · intro o act hc hw
    exact (hnowin o act hc hw).elim
  · intro r act hc hread hb
    dsimp only at hc hb ⊢
    rw [hk] at hb
    rcases h.blocked r act hc hread (hblocked r act hc (state_of_yield hb (by decide))) with hl | ⟨o,old,hold,hi,hp,hlive⟩
    · exact Or.inl hl
    · obtain ⟨w,ho,hz⟩ : ∃ w, o = some w ∧ ¬ Zombie s.cpu.kernel w := by
        rcases hlive with ho | hw
        · rw [ho] at hold
          rw [ho]
          exact hpend old hold hp
        · exact hw
      refine Or.inr ⟨o,old,hold,hi,hp,Or.inr ⟨w,ho,?_⟩⟩
      intro hz'
      dsimp only at hz'
      rw [hk] at hz'
      rw [ho] at hold
      exact hz (hzombie w old hold (state_of_yield hz' (by decide)))
  · intro c hc hb
    dsimp only at hc hb
    rw [hk] at hc hb
    rw [processYield_running hc] at hb
    cases hb

/-- The reader yields and will test its pipe again. -/
theorem Orderly.readYield (h : Orderly s) {i : PipeId} {depth len : ℕ}
    (hcode : s.code s.here = some ⟨i,depth,.readYield len⟩) :
    Orderly { s.goto ⟨i,depth,.readYield len⟩ (.readTest len) with cpu := s.cpu.switch K s.cpu.kernel } := by
  have hy : Orderly { s with cpu := s.cpu.switch K s.cpu.kernel } := by
    refine h.yields rfl (Restated.refl _) (fun _ _ _ hb => hb) (fun _ _ _ hz => hz) ?_ ?_
    · intro act hc
      cases hcode.symm.trans hc
      rfl
    · intro act hc hp
      cases hcode.symm.trans hc
      cases hp
  have hself : Function.update s.code s.here (some ⟨i,depth,.readTest len⟩) s.here = some ⟨i,depth,.readTest len⟩ :=
    Function.update_self _ _ _
  refine ⟨hy.owned,hy.small,?_,?_,?_⟩
  · intro o act hc hw
    change Function.update s.code s.here (some ⟨i,depth,.readTest len⟩) o = some act at hc
    by_cases ho : o = s.here
    · rw [ho,hself] at hc
      cases hc
      cases hw
    · rw [Function.update_of_ne ho] at hc
      exact hy.facts o act hc hw
  · intro r act hc hread hb
    change Function.update s.code s.here (some ⟨i,depth,.readTest len⟩) (some r) = some act at hc
    -- before the step the same reader was in the same pipe
    obtain ⟨act',hc',hpipe,hread'⟩ : ∃ act', s.code (some r) = some act' ∧ act'.pipe = act.pipe ∧
        reading act'.pc = true := by
      by_cases ho : some r = s.here
      · rw [ho,hself] at hc
        cases hc
        rw [ho]
        exact ⟨_,hcode,rfl,rfl⟩
      · rw [Function.update_of_ne ho] at hc
        exact ⟨act,hc,rfl,hread⟩
    rcases hy.blocked r act' hc' hread' hb with hl | ⟨o,old,hold,hi,hp,hlive⟩
    · rw [hpipe] at hl
      exact Or.inl hl
    · refine Or.inr ⟨o,old,?_,hi.trans hpipe,hp,hlive⟩
      change Function.update s.code s.here (some ⟨i,depth,.readTest len⟩) o = some old
      rw [Function.update_of_ne]
      · exact hold
      · rintro rfl
        cases hcode.symm.trans hold
        cases hp
  · intro c hc hb
    change (processYield K s.cpu.kernel).current = some c at hc
    change ((processYield K s.cpu.kernel).table c).state = .blocked at hb
    rw [processYield_running hc] at hb
    cases hb

/-- A call that stays in the running context. -/
theorem Orderly.stays (h : Orderly s) {cpu : Cpu} (howned : StacksOwned cpu.kernel)
    (hcur : cpu.kernel.current = s.cpu.kernel.current)
    (hblocked : ∀ r, (cpu.kernel.table r).state = .blocked → (s.cpu.kernel.table r).state = .blocked)
    (hzombie : ∀ w act, s.code (some w) = some act → pending act.pc = true → Zombie cpu.kernel w →
      Zombie s.cpu.kernel w) : Orderly { s with cpu := cpu } := by
  have hhere : ({ s with cpu := cpu } : PipeSystem).here = s.here := by
    rw [h.here_eq,← hcur]
    exact howned.onStack
  refine ⟨howned,h.small,?_,?_,?_⟩
  · intro o act hc hw
    rw [hhere]
    exact h.facts o act hc hw
  · intro r act hc hread hb
    rcases h.blocked r act hc hread (hblocked r hb) with hl | ⟨o,old,hold,hi,hp,hlive⟩
    · exact Or.inl hl
    · refine Or.inr ⟨o,old,hold,hi,hp,?_⟩
      rw [hhere]
      rcases hlive with ho | ⟨w,ho,hz⟩
      · exact Or.inl ho
      · refine Or.inr ⟨w,ho,fun hz' => hz ?_⟩
        rw [ho] at hold
        exact hzombie w old hold hp hz'
  · intro c hc hb
    exact h.marked c (hcur ▸ hc) (hblocked c hb)

/-- Without a switch, only `process_kill` terminates anybody. -/
theorem zombie_apply {k : Kernel} {call : KernelCall} {w : Slot} (hy : call.yieldPoint k = none)
    (h : Zombie (call.apply K k) w) : Zombie k w ∨ ∃ pid, call = .kill pid ∧ killSlot pid k = some w := by
  unfold Zombie at h
  have hafter := apply_state K k call w
  rw [h] at hafter
  cases hafter with
  | same he => exact Or.inl he.symm
  | runs he => exact absurd he (by decide)
  | blocks he => cases he
  | exits _ hcall =>
    rw [hcall] at hy
    cases hy
  | killed pid _ hcall hs => exact Or.inr ⟨pid,hcall,hs⟩

theorem yieldPoint_state {k k₀ : Kernel} {call : KernelCall} (hy : call.yieldPoint k = some k₀) {r : Slot}
    (hr : call ≠ .yield → k.current ≠ some r) : (k₀.table r).state = (k.table r).state := by
  cases call with
  | yield =>
    cases hy
    rfl
  | exit =>
    have hcur := hr (fun hf => (nomatch hf))
    cases hc : k.current with
    | none =>
      rw [KernelCall.yieldPoint,hc] at hy
      cases hy
      rfl
    | some c =>
      rw [KernelCall.yieldPoint,hc] at hy
      cases hy
      rw [terminate_state,if_neg]
      rintro rfl
      exact hcur hc
  | block =>
    have hcur := hr (fun hf => (nomatch hf))
    cases hc : k.current with
    | none =>
      rw [KernelCall.yieldPoint,hc] at hy
      cases hy
      rfl
    | some c =>
      rw [KernelCall.yieldPoint,hc] at hy
      cases hy
      rw [setState_table,if_neg]
      rintro rfl
      exact hcur hc
  | _ => cases hy

/-- A call of kernel code outside of the pipe functions, or of an interrupt handler inside them. -/
theorem Orderly.calls (h : Orderly s) {call : KernelCall} {cpu : Cpu}
    (hk : cpu.kernel = call.apply K s.cpu.kernel) (hfree : s.code s.here = none ∨ Interrupt call)
    (hu : Undisturbed s (.cpu (.call call)))
    (hboot : call = .yield → ∀ act, s.code s.here = some act → s.here ≠ none) : Orderly { s with cpu := cpu } := by
  cases hy : call.yieldPoint s.cpu.kernel with
  | none =>
    apply h.stays
    · rw [hk]
      exact h.owned.apply K call
    · rw [hk]
      exact (apply_stays hy).1
    · intro r hb
      rw [hk] at hb
      rcases blocked_apply hb with hb | ⟨hcall,_⟩
      · exact hb
      · rw [hcall] at hy
        cases hy
    · intro w act hc hp hz
      rw [hk] at hz
      rcases zombie_apply hy hz with hz | ⟨pid,hcall,hs⟩
      · exact hz
      · rw [hcall] at hu
        have hno := hu w act hs hc
        rw [hno] at hp
        cases hp
  | some k₀ =>
    rw [apply_yieldPoint hy] at hk
    -- a context inside a pipe function only yields
    have hyield : ∀ act, s.code s.here = some act → call = .yield := by
      intro act hc
      rcases hfree with hf | hf | hf
      · rw [hf] at hc
        cases hc
      · exact hf
      · rw [hf] at hy
        cases hy
    have hstate : ∀ r act, s.code (some r) = some act → (k₀.table r).state = (s.cpu.kernel.table r).state := by
      intro r act hc
      apply yieldPoint_state hy
      intro hne hcur
      rw [← hcur,← h.here_eq] at hc
      exact hne (hyield act hc)
    apply h.yields hk (restated_yieldPoint h.owned hy)
    · intro r act hc hb
      rw [← hstate r act hc]
      exact hb
    · intro w act hc hz
      unfold Zombie
      rw [← hstate w act hc]
      exact hz
    · intro act hc
      have hcall := hyield act hc
      subst hcall
      exact (hu act hc).1
    · intro act hc hp
      have hcall := hyield act hc
      obtain ⟨c,hhere⟩ := Option.ne_none_iff_exists'.mp (hboot hcall act hc)
      subst hcall
      exact ⟨c,hhere,(hu act hc).2 hp c hhere⟩

end Steps

/-! ## One statement -/

section Statements
variable {K : KernelLayout} {s : PipeSystem} {act : Activation}

/-- The running context goes on to `pc` and leaves its pipe as `p`. -/
theorem Orderly.goes (h : Orderly s) (hcode : s.code s.here = some act) (hy : ∀ len, act.pc ≠ .readYield len)
    {p : Pipe} {pc : PipePc} (hsmall : p.count < 2^32) (hpend : pending act.pc = true → pending pc = true)
    (hpipe : (s.pipes act.pipe).count = 0 → (s.pipes act.pipe).isOpen = true →
      (p.count = 0 ∧ p.isOpen = true) ∨ pending pc = true)
    (hfacts : window pc = true → PcFacts p pc) : Orderly ((s.setPipe act.pipe p).goto act pc) := by
  apply h.advance
  · intro act' len hc
    cases hcode.symm.trans hc
    exact hy len
  · intro i
    by_cases hi : i = act.pipe
    · rw [hi,PipeSystem.setPipe_self]
      exact hsmall
    · rw [PipeSystem.setPipe_other s hi]
      exact h.small i
  · intro old hc hp
    cases hcode.symm.trans hc
    exact ⟨_,rfl,rfl,hpend hp⟩
  · intro i hz ho
    by_cases hi : i = act.pipe
    · subst hi
      rw [PipeSystem.setPipe_self]
      rcases hpipe hz ho with hl | hp
      · exact Or.inl hl
      · exact Or.inr ⟨_,rfl,rfl,hp⟩
    · rw [PipeSystem.setPipe_other s hi]
      exact Or.inl ⟨hz,ho⟩
  · intro act' ha hw
    cases ha
    rw [PipeSystem.setPipe_self]
    exact hfacts hw

theorem goto_self (s : PipeSystem) (act : Activation) (pc : PipePc) :
    s.goto act pc = (s.setPipe act.pipe (s.pipes act.pipe)).goto act pc := by
  unfold PipeSystem.setPipe
  rw [Function.update_eq_self]

/-- The pipe stays as it is. -/
theorem Orderly.goesOn (h : Orderly s) (hcode : s.code s.here = some act) (hy : ∀ len, act.pc ≠ .readYield len)
    {pc : PipePc} (hpend : pending act.pc = true → pending pc = true)
    (hfacts : window pc = true → PcFacts (s.pipes act.pipe) pc) : Orderly (s.goto act pc) := by
  rw [goto_self]
  exact h.goes hcode hy (h.small _) hpend (fun hz ho => Or.inl ⟨hz,ho⟩) hfacts

/-- The running context returns from its pipe function. -/
theorem Orderly.leaves (h : Orderly s) (hcode : ∀ act, s.code s.here = some act →
      (∀ len, act.pc ≠ .readYield len) ∧ pending act.pc = false) {pipes : PipeTable}
    (hsmall : ∀ i, (pipes i).count < 2^32)
    (hpipes : ∀ i, (s.pipes i).count = 0 → (s.pipes i).isOpen = true →
      (pipes i).count = 0 ∧ (pipes i).isOpen = true) (result : Outcome) :
    Orderly ({ s with pipes := pipes }.leave result) := by
  apply h.advance
  · intro act len hc
    exact (hcode act hc).1 len
  · exact hsmall
  · intro old hc hp
    rw [(hcode old hc).2] at hp
    cases hp
  · intro i hz ho
    exact Or.inl (hpipes i hz ho)
  · intro act ha
    cases ha

theorem Orderly.leavesOn (h : Orderly s) (hcode : ∀ act, s.code s.here = some act →
      (∀ len, act.pc ≠ .readYield len) ∧ pending act.pc = false) (result : Outcome) : Orderly (s.leave result) :=
  h.leaves hcode h.small (fun _ hz ho => ⟨hz,ho⟩) result

theorem Orderly.loopEnd (h : Orderly s) {i : PipeId} {depth written : ℕ} {rest : List UInt8}
    (hcode : s.code s.here = some ⟨i,depth,.writeTest written rest⟩) :
    Orderly (s.loopEnd ⟨i,depth,.writeTest written rest⟩ written) := by
  unfold PipeSystem.loopEnd
  by_cases hw : 0 < written
  · rw [if_pos hw]
    exact h.goesOn hcode (fun _ hf => (nomatch hf)) (fun _ => rfl) (fun hf => (nomatch hf))
  · rw [if_neg hw]
    apply h.leavesOn
    intro act hc
    cases hcode.symm.trans hc
    exact ⟨fun _ hf => (nomatch hf),decide_eq_false hw⟩

/-- Taking a byte from a pipe that has one. -/
theorem count_pred {n : ℕ} (hpos : 0 < n) (hsmall : n < 2^32) : (n+(2^32-1)) % 2^32 = n-1 := by
  have hsum : n+(2^32-1) = n-1+2^32 := by omega
  rw [hsum,Nat.add_mod_right,Nat.mod_eq_of_lt (by omega)]

theorem Orderly.stmt (h : Orderly s) (hcode : s.code s.here = some act) : Orderly (s.stmt K act) := by
  obtain ⟨i,depth,pc⟩ := act
  have hleave : (∀ len, pc ≠ .readYield len) → pending pc = false →
      ∀ act, s.code s.here = some act → (∀ len, act.pc ≠ .readYield len) ∧ pending act.pc = false := by
    intro hy hp act hc
    cases hcode.symm.trans hc
    exact ⟨hy,hp⟩
  have hwin : window pc = true → PcFacts (s.pipes i) pc := fun hw => (h.facts s.here _ hcode hw).2
  unfold PipeSystem.stmt
  cases pc with
  | readTest len =>
    dsimp only
    by_cases hz : (s.pipes i).count = 0
    · rw [if_pos hz]
      exact h.goesOn hcode (fun _ hf => (nomatch hf)) (fun hf => (nomatch hf)) (fun _ => hz)
    · rw [if_neg hz]
      exact h.goesOn hcode (fun _ hf => (nomatch hf)) (fun hf => (nomatch hf)) (fun hf => (nomatch hf))
  | readOpen len =>
    have hz : (s.pipes i).count = 0 := hwin rfl
    dsimp only
    cases ho : (s.pipes i).isOpen with
    | false => exact h.leavesOn (hleave (fun _ hf => (nomatch hf)) rfl) _
    | true => exact h.goesOn hcode (fun _ hf => (nomatch hf)) (fun hf => (nomatch hf)) (fun _ => ⟨hz,ho⟩)
  | readCurrent len =>
    have hempty : (s.pipes i).count = 0 ∧ (s.pipes i).isOpen = true := hwin rfl
    dsimp only
    split
    · exact h.leavesOn (hleave (fun _ hf => (nomatch hf)) rfl) _
    · exact h.goesOn hcode (fun _ hf => (nomatch hf)) (fun hf => (nomatch hf)) (fun _ => hempty)
  | readMark len => exact h.mark hcode rfl
  | readYield len => exact h.readYield hcode
  | readMin len =>
    dsimp only
    generalize hn : (if len < (s.pipes i).count then len else (s.pipes i).count) = n
    have hle : n ≤ (s.pipes i).count := by
      rw [← hn]
      split <;> omega
    cases n with
    | zero => exact h.leavesOn (hleave (fun _ hf => (nomatch hf)) rfl) _
    | succ n => exact h.goesOn hcode (fun _ hf => (nomatch hf)) (fun hf => (nomatch hf)) (fun _ => hle)
  | readByte rest got =>
    exact h.goesOn hcode (fun _ hf => (nomatch hf)) (fun hf => (nomatch hf)) (fun _ => hwin rfl)
  | readHead rest got =>
    exact h.goes hcode (fun _ hf => (nomatch hf)) (h.small i) (fun hf => (nomatch hf)) (fun hz ho => Or.inl ⟨hz,ho⟩)
      (fun _ => hwin rfl)
  | readCount rest got =>
    have hlt : rest < (s.pipes i).count := hwin rfl
    have hne : (s.pipes i).count ≠ 0 := by omega
    have hpred := count_pred (Nat.zero_lt_of_lt hlt) (h.small i)
    have hmod : ((s.pipes i).count+(2^32-1)) % 2^32 < 2^32 := Nat.mod_lt _ (by decide)
    dsimp only
    cases rest with
    | zero =>
      apply h.leaves (hleave (fun _ hf => (nomatch hf)) rfl)
      · intro j
        by_cases hj : j = i
        · rw [hj,Function.update_self]
          exact hmod
        · rw [Function.update_of_ne hj]
          exact h.small j
      · intro j hz ho
        have hj : j ≠ i := by
          rintro rfl
          exact hne hz
        rw [Function.update_of_ne hj]
        exact ⟨hz,ho⟩
    | succ n =>
      refine h.goes hcode (fun _ hf => (nomatch hf)) hmod (fun hf => (nomatch hf)) (fun hz _ => absurd hz hne)
        (fun _ => ?_)
      change n < ((s.pipes i).count+(2^32-1)) % 2^32
      rw [hpred]
      omega
  | writeTest written rest =>
    dsimp only
    cases rest with
    | nil => exact h.loopEnd hcode
    | cons b rest =>
      dsimp only
      split
      · exact h.goesOn hcode (fun _ hf => (nomatch hf)) id (fun hf => (nomatch hf))
      · exact h.loopEnd hcode
  | writeByte written b rest =>
    exact h.goes hcode (fun _ hf => (nomatch hf)) (h.small i) (fun _ => rfl) (fun hz ho => Or.inl ⟨hz,ho⟩)
      (fun hf => (nomatch hf))
  | writeTail written rest =>
    exact h.goes hcode (fun _ hf => (nomatch hf)) (h.small i) (fun _ => rfl) (fun hz ho => Or.inl ⟨hz,ho⟩)
      (fun hf => (nomatch hf))
  | writeCount written rest =>
    exact h.goes hcode (fun _ hf => (nomatch hf)) (Nat.mod_lt _ (by decide)) (fun _ => rfl) (fun _ _ => Or.inr rfl)
      (fun hf => (nomatch hf))
  | writeWake written => exact h.wakeAll _
  | closeWake => exact h.wakeAll _

end Statements

/-! ## Whole runs -/

section Runs
variable {K : KernelLayout} {s s' : PipeSystem}

theorem Orderly.setCpu (h : Orderly s) {cpu : Cpu} (hk : cpu.kernel = s.cpu.kernel) : Orderly { s with cpu := cpu } := by
  apply h.stays
  · rw [hk]
    exact h.owned
  · rw [hk]
  · rw [hk]
    exact fun _ hb => hb
  · rw [hk]
    exact fun _ _ _ _ hz => hz

theorem Orderly.cpuStep (h : Orderly s) {a : CpuStep} {cpu : Cpu} (hmay : s.mayStep a = true)
    (hstep : InterruptFlag.step K s.cpu a = some cpu) (hu : Undisturbed s (.cpu a)) : Orderly { s with cpu := cpu } := by
  rcases step_cases hstep with ⟨_,_,rfl⟩ | ⟨_,_,rfl⟩ | ⟨_,b,rest,_,rfl⟩ | ⟨_,_,_,rfl⟩ | ⟨call,rfl,hcall,rfl⟩
  · exact h.setCpu rfl
  · exact h.setCpu rfl
  · exact h.setCpu rfl
  · exact h.setCpu rfl
  · -- inside a pipe function there is a gate on top of it, which the handler was entered through
    have hgate : ∀ act, s.code s.here = some act → act.depth < s.cpu.saved.length ∧ Interrupt call := by
      intro act hc
      unfold PipeSystem.mayStep at hmay
      rw [hc] at hmay
      cases call <;> simp [handlerStep] at hmay
      · exact ⟨hmay,Or.inr rfl⟩
      · exact ⟨hmay,Or.inl rfl⟩
    apply h.calls (calls_kernel s.cpu call) _ hu
    · rintro rfl act hc hnone
      have hlen := (hgate act hc).1
      rw [h.here_eq] at hnone
      unfold Cpu.mayCall at hcall
      rw [hnone,Bool.and_eq_true] at hcall
      have hempty : s.cpu.saved = [] := by simpa [KernelCall.yieldPoint] using hcall.2
      rw [hempty] at hlen
      cases hlen
    · cases hc : s.code s.here with
      | none => exact Or.inl rfl
      | some act => exact Or.inr (hgate act hc).2

theorem Orderly.enter (h : Orderly s) (hcode : s.code s.here = none) (call : PipeCall) : Orderly (s.enter call) := by
  have hnone : ∀ act, s.code s.here = some act → (∀ len, act.pc ≠ .readYield len) ∧ pending act.pc = false := by
    intro act hc
    rw [hcode] at hc
    cases hc
  have hstart : ∀ (i : PipeId) (pipes : PipeTable) (pc : PipePc), window pc = false → (∀ j, (pipes j).count < 2^32) →
      (∀ j, (s.pipes j).count = 0 → (s.pipes j).isOpen = true →
        ((pipes j).count = 0 ∧ (pipes j).isOpen = true) ∨ (i = j ∧ pending pc = true)) →
      Orderly ({ s with pipes := pipes }.setCode (some ⟨i,s.cpu.saved.length,pc⟩)) := by
    intro i pipes pc hw hsmall hpipes
    apply h.advance (fun act len hc => (hnone act hc).1 len) hsmall
    · intro old hc
      rw [hcode] at hc
      cases hc
    · intro j hz ho
      rcases hpipes j hz ho with hl | ⟨hi,hp⟩
      · exact Or.inl hl
      · exact Or.inr ⟨_,rfl,hi,hp⟩
    · intro act ha hw'
      cases ha
      rw [hw] at hw'
      cases hw'
  cases call with
  | alloc =>
    apply h.leaves hnone
    · intro i
      unfold pipeAlloc
      split
      · rename_i j _
        dsimp only
        by_cases hi : i = j
        · rw [hi,Function.update_self]
          exact (by decide : 0 < 2^32)
        · rw [Function.update_of_ne hi]
          exact h.small i
      · exact h.small i
    · intro i hz ho
      rw [pipeAlloc_open ho]
      exact ⟨hz,ho⟩
  | read id len =>
    unfold PipeSystem.enter
    dsimp only
    split
    · exact h.leavesOn hnone _
    · exact hstart _ s.pipes _ rfl h.small (fun _ hz ho => Or.inl ⟨hz,ho⟩)
  | write id data =>
    unfold PipeSystem.enter
    dsimp only
    split
    · exact h.leavesOn hnone _
    · exact hstart _ s.pipes _ rfl h.small (fun _ hz ho => Or.inl ⟨hz,ho⟩)
  | close id =>
    unfold PipeSystem.enter
    dsimp only
    split
    · exact h.leavesOn hnone _
    · rename_i i _
      apply hstart i _ .closeWake rfl
      · intro j
        by_cases hj : j = i
        · rw [hj,Function.update_self]
          exact h.small i
        · rw [Function.update_of_ne hj]
          exact h.small j
      · intro j hz ho
        by_cases hj : j = i
        · exact Or.inr ⟨hj.symm,rfl⟩
        · rw [Function.update_of_ne hj]
          exact Or.inl ⟨hz,ho⟩

theorem Orderly.step (h : Orderly s) {a : PipeStep} (hu : Undisturbed s a) (hstep : step K s a = some s') :
    Orderly s' := by
  cases a with
  | cpu a =>
    rw [PipeStatements.step,Option.ite_none_right_eq_some] at hstep
    obtain ⟨hmay,hstep⟩ := hstep
    obtain ⟨cpu,hcpu,rfl⟩ := Option.map_eq_some_iff.mp hstep
    exact h.cpuStep hmay hcpu hu
  | enter call =>
    rw [PipeStatements.step,Option.ite_none_right_eq_some,Option.some_inj] at hstep
    obtain ⟨hfree,rfl⟩ := hstep
    rw [Bool.and_eq_true,Option.isNone_iff_eq_none] at hfree
    exact h.enter hfree.1 call
  | stmt =>
    obtain ⟨act,hcode,hact⟩ := Option.bind_eq_some_iff.mp hstep
    rw [Option.ite_none_right_eq_some,Option.some_inj] at hact
    obtain ⟨_,rfl⟩ := hact
    exact h.stmt hcode

end Runs

/-- In every run in which the timer switches away from no reader in its window, and nobody is terminated on the way
to a wake-up, no wake-up is lost. -/
theorem no_lost_wakeup (K : KernelLayout) (mach : Machine) (old : Slot → Proc) {s : PipeSystem}
    (h : Reached K mach old Undisturbed s) : NoLostWakeup s := by
  have horderly : Orderly s := by
    induction h with
    | boot => exact orderly_boot K mach old
    | step _ hu hstep ih => exact ih.step hu hstep
  intro r act hc hread hb hwake
  exact (horderly.blocked r act hc hread hb).resolve_right hwake

/-! ## A wake-up lost -/

def bootedPipes : PipeSystem := ⟨bootedCpu,pipeInit,fun _ => none,fun _ => none⟩

theorem reached_bootedPipes (ok : PipeSystem → PipeStep → Prop) :
    ∃ old, Reached sampleLayout bootedSystem.mach old ok bootedPipes :=
  ⟨fun _ => ⟨⟨none,0⟩,0,.unused,0,false,0,0⟩,.boot⟩

/-- The shell makes two user processes and yields to the idle process. The timer starts the first one, which allocates
a pipe and blocks reading from it. -/
def toBlocked : List PipeStep :=
  [.cpu (.call (.createUser 0x400000 0x800000 0x200000)),.cpu (.call (.createUser 0x400000 0x800000 0x201000)),
   .cpu (.call .yield),.cpu .irq,.cpu (.call .yield),.cpu .int80,.enter .alloc,.cpu .iret,
   .cpu .int80,.enter (.read 0 1),.stmt,.stmt,.stmt,.stmt,.stmt]

/-- The second process runs until the timer switches to the idle process. A key wakes the reader, to which the idle
process yields with IF set. The reader finds the pipe empty, and the timer interrupts it. -/
def toWindow : List PipeStep :=
  [.cpu .irq,.cpu (.call .yield),.cpu .iret,.cpu .irq,.cpu (.call .wakeAllBlocked),.cpu .iret,.cpu (.call .yield),
   .stmt,.stmt,.stmt,.cpu .irq,.cpu (.call .yield)]

/-- The second process writes a byte. The timer and the idle process bring the reader back, which goes on to block. -/
def toLost : List PipeStep :=
  [.cpu .iret,.cpu .int80,.enter (.write 0 [7]),.stmt,.stmt,.stmt,.stmt,.stmt,.stmt,.cpu .iret,
   .cpu .irq,.cpu (.call .yield),.cpu .sti,.cpu (.call .yield),.cpu .iret,.stmt,.stmt]

/-- Process `r` is BLOCKED in a read of pipe `i`, which has `n` bytes, and nobody else is inside a pipe function. -/
def readerWaits (r : Slot) (i : PipeId) (n : ℕ) (s : PipeSystem) : Bool :=
  (s.cpu.kernel.table r).state = .blocked && (s.code (some r)).any (fun act => act.pipe = i && reading act.pc) &&
    (s.pipes i).count = n && (List.finRange 16).all (fun j => j = r || (s.code (some j)).isNone) &&
    (s.code none).isNone

theorem readerWaits_spec {r : Slot} {i : PipeId} {n : ℕ} {s : PipeSystem} (h : readerWaits r i n s = true) :
    (∃ act, s.code (some r) = some act ∧ act.pipe = i ∧ reading act.pc = true) ∧
      (s.cpu.kernel.table r).state = .blocked ∧ (s.pipes i).count = n ∧ ∀ o, o ≠ some r → s.code o = none := by
  unfold readerWaits at h
  simp only [Bool.and_eq_true,decide_eq_true_iff,Option.any_eq_true,List.all_eq_true,List.mem_finRange,
    forall_true_left,Bool.or_eq_true,Option.isNone_iff_eq_none] at h
  obtain ⟨⟨⟨⟨hb,act,hc,hp,hr⟩,hn⟩,hothers⟩,hboot⟩ := h
  refine ⟨⟨act,hc,hp,hr⟩,hb,hn,?_⟩
  intro o ho
  cases o with
  | none => exact hboot
  | some j => exact (hothers j).resolve_left (fun hj => ho (by rw [hj]))

/-- No switch happens inside a pipe function, and nobody is killed. -/
def calm (s : PipeSystem) : PipeStep → Bool
  | .cpu (.call .yield) => (s.code s.here).isNone
  | .cpu (.call (.kill _)) => false
  | _ => true

theorem undisturbed_of_calm (s : PipeSystem) (a : PipeStep) (h : calm s a = true) : Undisturbed s a := by
  unfold Undisturbed
  split
  · intro act hc
    unfold calm at h
    rw [hc] at h
    cases h
  · cases h
  · trivial

theorem reader_waits_undisturbed : ∃ s, NoLostWakeup s ∧ (∃ act, s.code (some 1) = some act ∧ act.pipe = 0 ∧
    reading act.pc = true) ∧ (s.cpu.kernel.table 1).state = .blocked := by
  have hrun : (PipeStatements.run sampleLayout calm bootedPipes toBlocked).any (readerWaits 1 0 0) = true := by
    decide +kernel
  obtain ⟨s,hs,hw⟩ := (Option.any_eq_true _ _).mp hrun
  obtain ⟨old,hboot⟩ := reached_bootedPipes Undisturbed
  obtain ⟨hcode,hb,_⟩ := readerWaits_spec hw
  exact ⟨s,no_lost_wakeup sampleLayout bootedSystem.mach old (hboot.run undisturbed_of_calm hs),hcode,hb⟩

theorem wakeup_lost : ∃ old s, Reached sampleLayout bootedSystem.mach old (fun _ _ => True) s ∧
    (∃ act, s.code (some 1) = some act ∧ act.pipe = 0 ∧ reading act.pc = true) ∧
    (s.cpu.kernel.table 1).state = .blocked ∧ (s.pipes 0).count = 1 ∧ ∀ o, o ≠ some 1 → s.code o = none := by
  have hrun : (PipeStatements.run sampleLayout (fun _ _ => true) bootedPipes (toBlocked++toWindow++toLost)).any
      (readerWaits 1 0 1) = true := by
    decide +kernel
  obtain ⟨s,hs,hw⟩ := (Option.any_eq_true _ _).mp hrun
  obtain ⟨old,hboot⟩ := reached_bootedPipes (fun _ _ => True)
  exact ⟨old,s,hboot.run (fun _ _ _ => trivial) hs,readerWaits_spec hw⟩

end VesperOS.LostWakeup
