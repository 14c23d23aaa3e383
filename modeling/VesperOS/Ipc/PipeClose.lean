import VesperOS.Ipc.Pipe
import VesperOS.Process.ContextSwitch

/-! # Closing a pipe

The pipe calls on top of the scheduler, each call one step and each wake-up of a blocked
reader one more. Between the close and the moment a woken reader runs, other processes
may do anything, and the reader finds whatever its slot holds by then.
-/
namespace VesperOS.PipeClose
open RingBuffer Pipes Paging ProcessTable Scheduler ContextSwitch SpaceLifecycle

/-- `waiting c` is the pipe and the length of the `pipe_read` in which process `c` called `process_block`. -/
structure Ipc where
  kernel : Kernel
  pipes : PipeTable
  waiting : Slot → Option (PipeId × ℕ)

inductive IpcStep where
  | alloc
  | write (id : ℤ) (data : List UInt8)
  | close (id : ℤ)
  | read (id : ℤ) (len : ℕ)
  | resume
  | kernel (call : KernelCall)

/-- The running context is not inside `pipe_read`. -/
def Ipc.Free (s : Ipc) : Prop := ∀ c, s.kernel.current = some c → s.waiting c = none

/-- Calls made by interrupt handlers: the timer yields, the keyboard wakes. -/
def Interrupt (call : KernelCall) : Prop := call = .yield ∨ call = .wakeAllBlocked

/-- Readers are woken when a byte was written. -/
def Ipc.writes (s : Ipc) (id : ℤ) (data : List UInt8) : Ipc :=
  { s with
    pipes := (pipeWrite id data s.pipes).2
    kernel := match (pipeWrite id data s.pipes).1 with
      | some (_+1) => processWakeAllBlocked s.kernel
      | _ => s.kernel }

def Ipc.closes (s : Ipc) (id : ℤ) : Ipc :=
  match pipeIndex id with
  | none => s
  | some _ => { s with pipes := pipeClose id s.pipes, kernel := processWakeAllBlocked s.kernel }

/-- One step; the result is that of the `pipe_read` that returns in it. -/
inductive Step (K : KernelLayout) : Ipc → IpcStep → Option ReadResult → Ipc → Prop
  | alloc {s : Ipc} : s.Free → Step K s .alloc none { s with pipes := (pipeAlloc s.pipes).2 }
  | write {s : Ipc} (id : ℤ) (data : List UInt8) : s.Free → Step K s (.write id data) none (s.writes id data)
  | close {s : Ipc} (id : ℤ) : s.Free → Step K s (.close id) none (s.closes id)
  | readDone {s : Ipc} (id : ℤ) (len : ℕ) : s.Free →
      (pipeRead s.kernel.current.isSome id len s.pipes).1 ≠ .blocked →
      Step K s (.read id len) (some (pipeRead s.kernel.current.isSome id len s.pipes).1)
        { s with pipes := (pipeRead s.kernel.current.isSome id len s.pipes).2 }
  | readBlocks {s : Ipc} {c : Slot} {i : PipeId} (id : ℤ) (len : ℕ) : s.Free → s.kernel.current = some c →
      openIndex s.pipes id = some i → (pipeRead true id len s.pipes).1 = .blocked →
      Step K s (.read id len) none
        ⟨processBlock K s.kernel,(pipeRead true id len s.pipes).2,Function.update s.waiting c (some (i,len))⟩
  | resumeDone {s : Ipc} {c : Slot} {i : PipeId} {len : ℕ} : s.kernel.current = some c →
      s.waiting c = some (i,len) → (resumeAt true i len s.pipes).1 ≠ .blocked →
      Step K s .resume (some (resumeAt true i len s.pipes).1)
        ⟨s.kernel,(resumeAt true i len s.pipes).2,Function.update s.waiting c none⟩
  | resumeBlocks {s : Ipc} {c : Slot} {i : PipeId} {len : ℕ} : s.kernel.current = some c →
      s.waiting c = some (i,len) → (resumeAt true i len s.pipes).1 = .blocked →
      Step K s .resume none { s with kernel := processBlock K s.kernel, pipes := (resumeAt true i len s.pipes).2 }
  | kernel {s : Ipc} {call : KernelCall} : s.Free ∨ Interrupt call →
      Step K s (.kernel call) none { s with kernel := call.apply K s.kernel }

inductive Reached (K : KernelLayout) (mach : Machine) (old : Slot → Proc) : Ipc → Prop
  | boot : Reached K mach old ⟨processInit K mach old,pipeInit,fun _ => none⟩
  | step {s s' : Ipc} {a : IpcStep} {res : Option ReadResult} :
      Reached K mach old s → Step K s a res s' → Reached K mach old s'

/-! ## What single calls do to a pipe and to a process -/

theorem writeLoop_zero {p : Pipe} {data : List UInt8} (h : (writeLoop p data).1 = 0) : (writeLoop p data).2 = p := by
  cases data with
  | nil => rfl
  | cons b rest =>
    unfold writeLoop at h ⊢
    by_cases hroom : p.count < bufSize
    · rw [if_pos hroom] at h
      cases h
    · rw [if_neg hroom]

theorem readResume_blocked {scheduling : Bool} {len : ℕ} {p : Pipe}
    (h : (readResume scheduling len p).1 = .blocked) :
    p.count = 0 ∧ p.isOpen = true ∧ (readResume scheduling len p).2 = p := by
  unfold readResume at h ⊢
  split at h
  · rename_i hz
    rw [if_pos hz]
    split at h
    · cases h
    · rename_i ho
      rw [if_neg ho]
      split at h
      · cases h
      · rename_i hs
        rw [if_neg hs]
        exact ⟨hz,by simpa using ho,rfl⟩
  · cases h

/-- An empty pipe stays as it is, whatever a reader finds. -/
theorem readResume_empty {scheduling : Bool} {len : ℕ} {p : Pipe} (h : p.count = 0) :
    (readResume scheduling len p).2 = p := by
  unfold readResume
  rw [if_pos h]
  split
  · rfl
  · split <;> rfl

theorem readResume_closed {scheduling : Bool} {len : ℕ} {p : Pipe} (h : p.count = 0) (ho : p.isOpen = false) :
    readResume scheduling len p = (.failed,p) := by
  unfold readResume
  rw [if_pos h,if_pos (by rw [ho]; rfl)]

theorem openIndex_open {ps : PipeTable} {id : ℤ} {i : PipeId} (h : openIndex ps id = some i) : (ps i).isOpen = true := by
  unfold openIndex at h
  exact (Option.filter_eq_some_iff.mp h).2

/-- A slot in use stays in use. -/
theorem used_apply {K : KernelLayout} {k : Kernel} {r : Slot} (call : KernelCall) (h : (k.table r).state ≠ .unused) :
    ((call.apply K k).table r).state ≠ .unused := by
  intro hu
  have hafter := apply_state K k call r
  rw [hu] at hafter
  cases hafter with
  | same he => exact h he.symm
  | runs he => exact absurd he (by decide)
  | blocks he => cases he
  | exits he => cases he
  | killed _ he => cases he

theorem current_apply {K : KernelLayout} {k : Kernel} (call : KernelCall) (h : k.current ≠ none) :
    (call.apply K k).current ≠ none := by
  cases hy : call.yieldPoint k with
  | some k₀ =>
    rw [apply_yieldPoint hy,processYield_current]
    exact Option.some_ne_none _
  | none =>
    rw [(apply_stays hy).1]
    exact h

/-! ## Blocked readers wait on open, empty pipes -/

structure Quiet (s : Ipc) : Prop where
  owned : StacksOwned s.kernel
  scheduled : ∀ r, s.waiting r ≠ none → s.kernel.current ≠ none ∧ (s.kernel.table r).state ≠ .unused
  empty : ∀ r i len, s.waiting r = some (i,len) → (s.kernel.table r).state = .blocked →
    (s.pipes i).count = 0 ∧ (s.pipes i).isOpen = true

/-- Nobody is BLOCKED after a wake-up. -/
theorem Quiet.woken {s : Ipc} (h : Quiet s) (pipes : PipeTable) :
    Quiet { s with pipes := pipes, kernel := processWakeAllBlocked s.kernel } := by
  refine ⟨h.owned.restate (restated_wakeAllBlocked _),?_,?_⟩
  · intro r hr
    obtain ⟨h1,h2⟩ := h.scheduled r hr
    exact ⟨h1,((restated_wakeAllBlocked _).used_iff r).mpr h2⟩
  · intro r i len _ hb
    exact absurd hb (wakeAllBlocked_state _ r)

/-- The pipes of blocked readers may not change. -/
theorem Quiet.setPipes {s : Ipc} (h : Quiet s) {pipes : PipeTable}
    (hp : ∀ i, (s.pipes i).count = 0 → (s.pipes i).isOpen = true → pipes i = s.pipes i) :
    Quiet { s with pipes := pipes } := by
  refine ⟨h.owned,h.scheduled,?_⟩
  intro r i len hw hb
  obtain ⟨h1,h2⟩ := h.empty r i len hw hb
  dsimp only
  rw [hp i h1 h2]
  exact ⟨h1,h2⟩

theorem pipeAlloc_open {ps : PipeTable} {i : PipeId} (h : (ps i).isOpen = true) : (pipeAlloc ps).2 i = ps i := by
  unfold pipeAlloc
  cases hf : (List.finRange 8).find? (fun i => !(ps i).isOpen) with
  | none => rfl
  | some j =>
    have hj := List.find?_some hf
    have hne : i ≠ j := by
      rintro rfl
      rw [h] at hj
      cases hj
    exact Function.update_of_ne hne _ _

theorem resumeAt_empty {ps : PipeTable} {i j : PipeId} {scheduling : Bool} {len : ℕ} (h : (ps i).count = 0) :
    (resumeAt scheduling j len ps).2 i = ps i := by
  unfold resumeAt
  dsimp only
  by_cases hij : i = j
  · subst hij
    rw [Function.update_self,readResume_empty h]
  · exact Function.update_of_ne hij _ _

theorem pipeRead_empty {ps : PipeTable} {i : PipeId} {scheduling : Bool} {id : ℤ} {len : ℕ} (h : (ps i).count = 0) :
    (pipeRead scheduling id len ps).2 i = ps i := by
  unfold pipeRead
  split
  · rfl
  · exact resumeAt_empty h

theorem resumeAt_blocked {ps : PipeTable} {i : PipeId} {scheduling : Bool} {len : ℕ}
    (h : (resumeAt scheduling i len ps).1 = .blocked) :
    (ps i).count = 0 ∧ (ps i).isOpen = true ∧ (resumeAt scheduling i len ps).2 = ps := by
  obtain ⟨h1,h2,h3⟩ := readResume_blocked h
  refine ⟨h1,h2,?_⟩
  unfold resumeAt
  dsimp only
  rw [h3,Function.update_eq_self]

/-- The running process blocks on an open, empty pipe. -/
theorem Quiet.blocks {K : KernelLayout} {s : Ipc} {c : Slot} {i : PipeId} (h : Quiet s) (len : ℕ)
    (hc : s.kernel.current = some c) (he : (s.pipes i).count = 0 ∧ (s.pipes i).isOpen = true) :
    Quiet ⟨processBlock K s.kernel,s.pipes,Function.update s.waiting c (some (i,len))⟩ := by
  refine ⟨h.owned.apply K .block,?_,?_⟩
  · intro r hr
    have hused : (s.kernel.table r).state ≠ .unused := by
      by_cases hrc : r = c
      · rw [hrc]
        exact h.owned.used c hc
      · dsimp only at hr
        rw [Function.update_of_ne hrc] at hr
        exact (h.scheduled r hr).2
    refine ⟨?_,used_apply .block hused⟩
    exact current_apply .block (by rw [hc]; exact Option.some_ne_none _)
  · intro r j len' hw hb
    dsimp only at hw hb ⊢
    by_cases hrc : r = c
    · rw [hrc,Function.update_self] at hw
      cases hw
      exact he
    · rw [Function.update_of_ne hrc] at hw
      have happly : (((KernelCall.block).apply K s.kernel).table r).state = .blocked := hb
      rcases blocked_apply happly with hb | ⟨_,hcur⟩
      · exact h.empty r j len' hw hb
      · exact absurd (Option.some.inj (hcur.symm.trans hc)) hrc

theorem quiet_step {K : KernelLayout} {s s' : Ipc} {a : IpcStep} {res : Option ReadResult} (h : Quiet s)
    (hstep : Step K s a res s') : Quiet s' := by
  cases hstep with
  | alloc => exact h.setPipes fun i _ ho => pipeAlloc_open ho
  | write id data =>
    unfold Ipc.writes
    cases hn : (pipeWrite id data s.pipes).1 with
    | none =>
      apply h.setPipes
      intro i _ _
      unfold pipeWrite at hn ⊢
      split at hn
      · rfl
      · cases hn
    | some n =>
      cases n with
      | succ n => exact h.woken _
      | zero =>
        apply h.setPipes
        intro i _ _
        unfold pipeWrite at hn ⊢
        split at hn
        · rfl
        · rename_i j _
          dsimp only
          rw [writeLoop_zero (Option.some.inj hn),Function.update_eq_self]
  | close id =>
    unfold Ipc.closes
    split
    · exact h
    · exact h.woken _
  | readDone id len => exact h.setPipes fun i hz _ => pipeRead_empty hz
  | @readBlocks c i id len _ hc ho hb =>
    unfold pipeRead at hb ⊢
    rw [ho] at hb ⊢
    dsimp only at hb ⊢
    obtain ⟨h1,h2,h3⟩ := resumeAt_blocked hb
    rw [h3]
    exact h.blocks len hc ⟨h1,h2⟩
  | @resumeDone c i len hc hw _ =>
    have hp : Quiet { s with pipes := (resumeAt true i len s.pipes).2 } := h.setPipes fun j hz _ => resumeAt_empty hz
    refine ⟨hp.owned,?_,?_⟩
    · intro r hr
      dsimp only at hr
      by_cases hrc : r = c
      · rw [hrc,Function.update_self] at hr
        exact absurd rfl hr
      · rw [Function.update_of_ne hrc] at hr
        exact h.scheduled r hr
    · intro r j len' hw' hb
      dsimp only at hw'
      by_cases hrc : r = c
      · rw [hrc,Function.update_self] at hw'
        cases hw'
      · rw [Function.update_of_ne hrc] at hw'
        exact hp.empty r j len' hw' hb
  | @resumeBlocks c i len hc hw hb =>
    obtain ⟨h1,h2,h3⟩ := resumeAt_blocked hb
    have hq := h.blocks (K := K) len hc ⟨h1,h2⟩
    rw [← hw,Function.update_eq_self] at hq
    rw [h3]
    exact hq
  | @kernel call hf =>
    refine ⟨h.owned.apply K call,?_,?_⟩
    · intro r hr
      obtain ⟨h1,h2⟩ := h.scheduled r hr
      exact ⟨current_apply call h1,used_apply call h2⟩
    · intro r i len hw hb
      rcases blocked_apply hb with hb | ⟨hcall,hcur⟩
      · exact h.empty r i len hw hb
      · -- a process inside `pipe_read` makes no call of its own
        rcases hf with hf | hf | hf
        · dsimp only at hw
          rw [hf r hcur] at hw
          cases hw
        · rw [hcall] at hf
          cases hf
        · rw [hcall] at hf
          cases hf

theorem Reached.quiet {K : KernelLayout} {mach : Machine} {old : Slot → Proc} {s : Ipc}
    (h : Reached K mach old s) : Quiet s := by
  induction h with
  | boot => exact ⟨stacksOwned_processInit K mach old,fun _ hr => absurd rfl hr,fun _ _ _ hw => (nomatch hw)⟩
  | step _ hstep ih => exact quiet_step ih hstep

/-! ## Between the close and the wake-up -/

/-- Steps in which reader `r` does not continue and slot `i` is not allocated again. -/
inductive Meanwhile (K : KernelLayout) (r : Slot) (i : PipeId) : Ipc → Ipc → Prop
  | refl (s : Ipc) : Meanwhile K r i s s
  | step {s s' s'' : Ipc} {a : IpcStep} {res : Option ReadResult} : Meanwhile K r i s s' → Step K s' a res s'' →
      (a = .resume → s'.kernel.current ≠ some r) → (a = .alloc → (pipeAlloc s'.pipes).1 ≠ some i) →
      Meanwhile K r i s s''

/-- Reader `r` is out of the BLOCKED state and will find its pipe closed and empty. -/
structure Released (r : Slot) (i : PipeId) (len : ℕ) (s : Ipc) : Prop where
  owned : StacksOwned s.kernel
  current : s.kernel.current ≠ none
  waiting : s.waiting r = some (i,len)
  closed : (s.pipes i).isOpen = false
  empty : (s.pipes i).count = 0
  used : (s.kernel.table r).state ≠ .unused
  woken : (s.kernel.table r).state ≠ .blocked

section Released
variable {K : KernelLayout} {r : Slot} {i : PipeId} {len : ℕ} {s s' : Ipc}

theorem Released.setPipes (h : Released r i len s) {pipes : PipeTable} (hp : pipes i = s.pipes i) :
    Released r i len { s with pipes := pipes } :=
  ⟨h.owned,h.current,h.waiting,by dsimp only; rw [hp]; exact h.closed,by dsimp only; rw [hp]; exact h.empty,h.used,
    h.woken⟩

theorem Released.setKernel (h : Released r i len s) (call : KernelCall)
    (hc : call = .block → s.kernel.current ≠ some r) : Released r i len { s with kernel := call.apply K s.kernel } := by
  refine ⟨h.owned.apply K call,current_apply call h.current,h.waiting,h.closed,h.empty,used_apply call h.used,?_⟩
  intro hb
  rcases blocked_apply hb with hb | ⟨hcall,hcur⟩
  · exact h.woken hb
  · exact hc hcall hcur

theorem Released.setWaiting (h : Released r i len s) {c : Slot} (hc : c ≠ r) (w : Option (PipeId × ℕ)) :
    Released r i len { s with waiting := Function.update s.waiting c w } := by
  refine ⟨h.owned,h.current,?_,h.closed,h.empty,h.used,h.woken⟩
  dsimp only
  rw [Function.update_of_ne hc.symm]
  exact h.waiting

/-- A process that makes a call is not the reader. -/
theorem Released.ne_of_free (h : Released r i len s) (hf : s.Free) : s.kernel.current ≠ some r := by
  intro hc
  have hw := h.waiting
  rw [hf r hc] at hw
  cases hw

theorem openIndex_closed {ps : PipeTable} {id : ℤ} {i j : PipeId} (h : (ps i).isOpen = false)
    (hj : openIndex ps id = some j) : i ≠ j := by
  rintro rfl
  have ho := openIndex_open hj
  rw [h] at ho
  cases ho

theorem pipeWrite_closed {ps : PipeTable} {i : PipeId} (id : ℤ) (data : List UInt8) (h : (ps i).isOpen = false) :
    (pipeWrite id data ps).2 i = ps i := by
  unfold pipeWrite
  split
  · rfl
  · rename_i j hj
    exact Function.update_of_ne (openIndex_closed h hj) _ _

theorem pipeAlloc_other {ps : PipeTable} {i : PipeId} (h : (pipeAlloc ps).1 ≠ some i) : (pipeAlloc ps).2 i = ps i := by
  unfold pipeAlloc at h ⊢
  cases hf : (List.finRange 8).find? (fun i => !(ps i).isOpen) with
  | none => rfl
  | some j =>
    rw [hf] at h
    refine Function.update_of_ne ?_ _ _
    rintro rfl
    exact h rfl

theorem Released.closes (h : Released r i len s) (K : KernelLayout) (id : ℤ) : Released r i len (s.closes id) := by
  unfold Ipc.closes
  cases hj : pipeIndex id with
  | none => exact h
  | some j =>
    have hk := h.setKernel (K := K) .wakeAllBlocked (fun hc => (nomatch hc))
    refine ⟨hk.owned,hk.current,hk.waiting,?_,?_,hk.used,hk.woken⟩
    all_goals
      dsimp only
      unfold pipeClose
      rw [hj]
      dsimp only
      by_cases hij : i = j
    · rw [hij,Function.update_self]
    · rw [Function.update_of_ne hij]
      exact h.closed
    · subst hij
      rw [Function.update_self]
      exact h.empty
    · rw [Function.update_of_ne hij]
      exact h.empty

theorem released_step {a : IpcStep} {res : Option ReadResult} (h : Released r i len s) (hstep : Step K s a res s')
    (hr : a = .resume → s.kernel.current ≠ some r) (ha : a = .alloc → (pipeAlloc s.pipes).1 ≠ some i) :
    Released r i len s' := by
  cases hstep with
  | alloc => exact h.setPipes (pipeAlloc_other (ha rfl))
  | write id data =>
    have hp := h.setPipes (pipeWrite_closed id data h.closed)
    unfold Ipc.writes
    split
    · exact hp.setKernel (K := K) .wakeAllBlocked (fun hc => (nomatch hc))
    · exact hp
  | close id => exact h.closes K id
  | readDone id len' => exact h.setPipes (pipeRead_empty h.empty)
  | @readBlocks c j id len' hf hc _ _ =>
    have hne : c ≠ r := fun he => h.ne_of_free hf (he ▸ hc)
    have hsame : (pipeRead true id len' s.pipes).2 i = s.pipes i := pipeRead_empty h.empty
    have hp := h.setPipes hsame
    have hk := hp.setKernel (K := K) .block fun _ => h.ne_of_free hf
    exact hk.setWaiting hne _
  | @resumeDone c j len' hc _ _ =>
    have hne : c ≠ r := fun he => hr rfl (he ▸ hc)
    exact (h.setPipes (resumeAt_empty h.empty)).setWaiting hne none
  | @resumeBlocks c j len' hc _ _ =>
    have hsame : (resumeAt true j len' s.pipes).2 i = s.pipes i := resumeAt_empty h.empty
    have hp := h.setPipes hsame
    exact hp.setKernel .block fun _ => hr rfl
  | @kernel call hf =>
    apply h.setKernel
    rintro rfl
    rcases hf with hf | hf | hf
    · exact h.ne_of_free hf
    · cases hf
    · cases hf

theorem Released.meanwhile (h : Released r i len s) (hm : Meanwhile K r i s s') : Released r i len s' := by
  induction hm with
  | refl => exact h
  | step _ hstep hr ha ih => exact released_step ih hstep hr ha

/-- When the reader runs it returns -1, without a byte. -/
theorem Released.fails (h : Released r i len s) (hc : s.kernel.current = some r) :
    Step K s .resume (some .failed) { s with waiting := Function.update s.waiting r none } ∧
      ∀ res s', Step K s .resume res s' → res = some .failed ∧ s'.pipes = s.pipes := by
  have hfail : resumeAt true i len s.pipes = (.failed,s.pipes) := by
    unfold resumeAt
    rw [readResume_closed h.empty h.closed]
    dsimp only
    rw [Function.update_eq_self]
  constructor
  · have hstep : Step K s .resume _ _ := .resumeDone hc h.waiting (by rw [hfail]; exact fun hb => (nomatch hb))
    rw [hfail] at hstep
    exact hstep
  · intro res s' hstep
    cases hstep with
    | @resumeDone c j len' hc' hw _ =>
      cases hc'.symm.trans hc
      cases hw.symm.trans h.waiting
      rw [hfail]
      exact ⟨rfl,rfl⟩
    | @resumeBlocks c j len' hc' hw hb =>
      cases hc'.symm.trans hc
      cases hw.symm.trans h.waiting
      rw [hfail] at hb
      cases hb

theorem meanwhile_yields (K : KernelLayout) (r : Slot) (i : PipeId) (s : Ipc) (n : ℕ) :
    Meanwhile K r i s { s with kernel := Scheduler.run K s.kernel (List.replicate n .yield) } := by
  induction n with
  | zero => exact .refl s
  | succ n ih =>
    rw [List.replicate_succ',run_snoc]
    exact ih.step (.kernel (Or.inr (Or.inl rfl))) (fun hc => (nomatch hc)) (fun hc => (nomatch hc))

/-- Yields alone bring a released reader back, unless it was terminated. -/
theorem Released.scheduled (h : Released r i len s) (K : KernelLayout) (hz : ¬ Zombie s.kernel r) :
    ∃ n, (Scheduler.run K s.kernel (List.replicate n .yield)).current = some r := by
  obtain ⟨d,hd⟩ := Option.ne_none_iff_exists'.mp h.current
  by_cases hdr : d = r
  · exact ⟨0,hdr ▸ hd⟩
  · have hready : (s.kernel.table r).state = .ready := by
      have hused := h.used
      have hwoken := h.woken
      unfold Zombie at hz
      cases hst : (s.kernel.table r).state with
      | ready => rfl
      | running => exact absurd (Option.some.inj (hd.symm.trans (h.owned.running r hst))) hdr
      | unused => exact absurd hst hused
      | blocked => exact absurd hst hwoken
      | zombie => exact absurd hst hz
    obtain ⟨n,hn,_⟩ := resume_ready K 16 hd hdr hready (r-d-1).isLt
    exact ⟨n,hn⟩

end Released

/-- A reader that is BLOCKED in `pipe_read` when its pipe is closed leaves that state, and as long as the slot is
not allocated again it returns -1 when it runs, which yields alone bring about unless it is terminated. -/
theorem close_releases (K : KernelLayout) (mach : Machine) (old : Slot → Proc) {s s₁ s₂ : Ipc} {r : Slot} {i : PipeId}
    {len : ℕ} {id : ℤ} (h : Reached K mach old s) (hw : s.waiting r = some (i,len))
    (hb : (s.kernel.table r).state = .blocked) (hid : pipeIndex id = some i)
    (hclose : Step K s (.close id) none s₁) (hm : Meanwhile K r i s₁ s₂) :
    (s₂.kernel.table r).state ≠ .blocked ∧
    (s₂.kernel.current = some r → ∀ res s₃, Step K s₂ .resume res s₃ → res = some .failed ∧ s₃.pipes = s₂.pipes) ∧
    (¬ Zombie s₂.kernel r → ∃ s₃ s₄, Meanwhile K r i s₂ s₃ ∧ s₃.kernel.current = some r ∧
      Step K s₃ .resume (some .failed) s₄) := by
  have hq := h.quiet
  obtain ⟨hcur,hused⟩ := hq.scheduled r (by rw [hw]; exact Option.some_ne_none _)
  obtain ⟨hempty,_⟩ := hq.empty r i len hw hb
  have hstart : Released r i len s₁ := by
    cases hclose with
    | close =>
      unfold Ipc.closes pipeClose
      rw [hid]
      have hwoken := hq.woken s.pipes
      refine ⟨hwoken.owned,hcur,hw,?_,?_,(hwoken.scheduled r (by rw [hw]; exact Option.some_ne_none _)).2,
        wakeAllBlocked_state _ r⟩
      · dsimp only
        rw [Function.update_self]
      · dsimp only
        rw [Function.update_self]
        exact hempty
  have hrel := hstart.meanwhile hm
  refine ⟨hrel.woken,fun hc => (hrel.fails hc).2,fun hz => ?_⟩
  obtain ⟨n,hn⟩ := hrel.scheduled K hz
  have hy := meanwhile_yields K r i s₂ n
  exact ⟨_,_,hy,hn,((hrel.meanwhile hy).fails hn).1⟩

/-! ## A slot allocated again -/

/-- Two threads, the first of which is running. -/
def twoThreads : Kernel := Scheduler.run sampleLayout Exec.bootedKernel [.create,.create,.yield,.yield]

/-- The running thread has blocked in a read of the pipe it allocated; it is in slot `r`, and the pipe is `i`. -/
def readerBlocked (r : Slot) (i : PipeId) : Ipc :=
  ⟨processBlock sampleLayout twoThreads,(pipeRead true 0 1 (pipeAlloc pipeInit).2).2,
    Function.update (fun _ => none) r (some (i,1))⟩

/-- While nobody is inside `pipe_read`, any calls may follow. -/
theorem Reached.calls {K : KernelLayout} {mach : Machine} {old : Slot → Proc} {s : Ipc} (h : Reached K mach old s)
    (hw : ∀ c, s.waiting c = none) (calls : List KernelCall) :
    Reached K mach old { s with kernel := Scheduler.run K s.kernel calls } := by
  induction calls generalizing s with
  | nil => exact h
  | cons call calls ih =>
    have hstep : Step K s (.kernel call) none { s with kernel := call.apply K s.kernel } :=
      .kernel (Or.inl fun c _ => hw c)
    exact ih (.step h hstep) hw

theorem reached_readerBlocked : ∃ old, Reached sampleLayout bootedSystem.mach old (readerBlocked 1 0) := by
  refine ⟨fun _ => ⟨⟨none,0⟩,0,.unused,0,false,0,0⟩,?_⟩
  have hboot : Reached sampleLayout bootedSystem.mach (fun _ => ⟨⟨none,0⟩,0,.unused,0,false,0,0⟩)
      ⟨Exec.bootedKernel,pipeInit,fun _ => none⟩ := .boot
  have hthreads := hboot.calls (fun _ => rfl) [.create,.create,.yield,.yield]
  have halloc := hthreads.step (.alloc fun _ _ => rfl)
  exact halloc.step (.readBlocks 0 1 (fun _ _ => rfl) rfl rfl rfl)

theorem blocked_reader_fails : ∃ s₁ s₃ s₄, Step sampleLayout (readerBlocked 1 0) (.close 0) none s₁ ∧
    (s₁.kernel.table 1).state ≠ .blocked ∧ Meanwhile sampleLayout 1 0 s₁ s₃ ∧ s₃.kernel.current = some 1 ∧
    Step sampleLayout s₃ .resume (some .failed) s₄ := by
  obtain ⟨old,hreach⟩ := reached_readerBlocked
  have hfree : (readerBlocked 1 0).Free := by
    intro c hc
    cases hc
    rfl
  have hclose : Step sampleLayout (readerBlocked 1 0) (.close 0) none ((readerBlocked 1 0).closes 0) := .close 0 hfree
  obtain ⟨hwoken,_,hlive⟩ := close_releases sampleLayout bootedSystem.mach old (r := 1) (i := 0) hreach rfl rfl rfl
    hclose (.refl _)
  obtain ⟨s₃,s₄,hm,hc,hfails⟩ := hlive (fun hz => (nomatch hz))
  exact ⟨_,s₃,s₄,hclose,hwoken,hm,hc,hfails⟩

/-- The second thread closes the pipe, allocates a new one in its slot and writes a byte to it. -/
def slotReused (r : Slot) (i : PipeId) : Ipc :=
  Ipc.writes { ((readerBlocked r i).closes 0) with pipes := (pipeAlloc ((readerBlocked r i).closes 0).pipes).2 } 0 [7]

/-- The reader then runs again after the idle process. -/
def readerBack (r : Slot) (i : PipeId) : Ipc :=
  { slotReused r i with kernel := Scheduler.run sampleLayout (slotReused r i).kernel [.yield,.yield] }

theorem reader_takes_new_byte : (∃ old, Reached sampleLayout bootedSystem.mach old (readerBlocked 1 0)) ∧
    (readerBlocked 1 0).waiting 1 = some (0,1) ∧ ((readerBlocked 1 0).kernel.table 1).state = .blocked ∧
    ∃ s₁ s₂ s₃ s₄ s₅, Step sampleLayout (readerBlocked 1 0) (.close 0) none s₁ ∧ Step sampleLayout s₁ .alloc none s₂ ∧
      Step sampleLayout s₂ (.write 0 [7]) none (slotReused 1 0) ∧ Step sampleLayout (slotReused 1 0) (.kernel .yield) none s₃ ∧
      Step sampleLayout s₃ (.kernel .yield) none s₄ ∧ Step sampleLayout s₄ .resume (some (.took [7])) s₅ := by
  have hfree : ∀ s : Ipc, s.kernel.current = some 2 → s.waiting = (readerBlocked 1 0).waiting → s.Free := by
    intro s h2 hw c hc
    rw [h2] at hc
    cases hc
    rw [hw]
    rfl
  have hres : (resumeAt true 0 1 (readerBack 1 0).pipes).1 = .took [7] := by decide
  have hresume : Step sampleLayout (readerBack 1 0) .resume (some (resumeAt true 0 1 (readerBack 1 0).pipes).1)
      ⟨(readerBack 1 0).kernel,(resumeAt true 0 1 (readerBack 1 0).pipes).2,Function.update (readerBack 1 0).waiting 1 none⟩ :=
    .resumeDone rfl rfl (by rw [hres]; exact fun hb => (nomatch hb))
  rw [hres] at hresume
  refine ⟨reached_readerBlocked,rfl,rfl,_,_,_,(readerBack 1 0),_,.close 0 (hfree _ rfl rfl),.alloc (hfree _ rfl rfl),
    .write 0 [7] (hfree _ rfl rfl),.kernel (Or.inr (Or.inl rfl)),.kernel (Or.inr (Or.inl rfl)),hresume⟩

end VesperOS.PipeClose
