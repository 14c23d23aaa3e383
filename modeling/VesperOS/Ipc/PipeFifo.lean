import VesperOS.Ipc.Pipe

/-! # Pipes as queues

Any number of readers and writers, each call one step and each wake-up of a blocked reader
one more. Beside the table a run keeps, for every pipe, the bytes accepted and the bytes
taken since it was last allocated; they are known from the results of the calls alone.
-/
namespace VesperOS.PipeFifo
open RingBuffer Pipes

inductive PipeStep where
  | alloc
  | write (id : ℤ) (data : List UInt8)
  | close (id : ℤ)
  | read (scheduling : Bool) (id : ℤ) (len : ℕ)
  | resume (scheduling : Bool) (i : PipeId) (len : ℕ)

structure Traffic where
  pipes : PipeTable
  accepted : PipeId → List UInt8
  taken : PipeId → List UInt8

/-- A new lifetime of pipe `i` begins. -/
def Traffic.renew (t : Traffic) (i : PipeId) : Traffic :=
  { t with accepted := Function.update t.accepted i [], taken := Function.update t.taken i [] }

def Traffic.accept (t : Traffic) (i : PipeId) (bytes : List UInt8) : Traffic :=
  { t with accepted := Function.update t.accepted i (t.accepted i++bytes) }

def Traffic.take (t : Traffic) (i : PipeId) (bytes : List UInt8) : Traffic :=
  { t with taken := Function.update t.taken i (t.taken i++bytes) }

def PipeStep.apply (t : Traffic) : PipeStep → Traffic
  | .alloc =>
    let t' := { t with pipes := (pipeAlloc t.pipes).2 }
    match (pipeAlloc t.pipes).1 with
    | none => t'
    | some i => t'.renew i
  | .write id data =>
    let t' := { t with pipes := (pipeWrite id data t.pipes).2 }
    match openIndex t.pipes id,(pipeWrite id data t.pipes).1 with
    | some i,some written => t'.accept i (data.take written)
    | _,_ => t'
  | .close id => { t with pipes := pipeClose id t.pipes }
  | .read scheduling id len =>
    let t' := { t with pipes := (pipeRead scheduling id len t.pipes).2 }
    match openIndex t.pipes id with
    | none => t'
    | some i => t'.take i (pipeRead scheduling id len t.pipes).1.bytes
  | .resume scheduling i len =>
    Traffic.take { t with pipes := (resumeAt scheduling i len t.pipes).2 } i
      (resumeAt scheduling i len t.pipes).1.bytes

def booted : Traffic := ⟨pipeInit,fun _ => [],fun _ => []⟩

def run (t : Traffic) (steps : List PipeStep) : Traffic := steps.foldl PipeStep.apply t

/-! ## The invariant of one pipe -/

/-- The ring is well formed, and its bytes are the accepted ones that were not taken yet. -/
structure Queued (t : Traffic) (i : PipeId) : Prop where
  ring : (t.pipes i).ring.Wf bufSize
  bytes : t.taken i++buffered (t.pipes i) = t.accepted i

/-- A step on another pipe changes nothing here. -/
theorem Queued.congr {t t' : Traffic} {i : PipeId} (h : Queued t i) (hp : t'.pipes i = t.pipes i)
    (ha : t'.accepted i = t.accepted i) (ht : t'.taken i = t.taken i) : Queued t' i := by
  constructor
  · rw [hp]
    exact h.ring
  · rw [hp,ha,ht]
    exact h.bytes

theorem zeroPipe_wf (isOpen : Bool) : ({ zeroPipe with isOpen := isOpen } : Pipe).ring.Wf bufSize :=
  ⟨Nat.zero_lt_succ _,rfl,Nat.zero_le _⟩

theorem queued_alloc {t : Traffic} {i : PipeId} (h : Queued t i) : Queued ((PipeStep.alloc).apply t) i := by
  cases hf : (List.finRange 8).find? (fun i => !(t.pipes i).isOpen) with
  | none =>
    simp only [PipeStep.apply,pipeAlloc,hf]
    exact h
  | some j =>
    simp only [PipeStep.apply,pipeAlloc,hf,Traffic.renew]
    by_cases hij : i = j
    · subst hij
      constructor
      · dsimp only
        rw [Function.update_self]
        exact zeroPipe_wf true
      · dsimp only
        rw [Function.update_self,Function.update_self,Function.update_self]
        rfl
    · exact h.congr (Function.update_of_ne hij _ _) (Function.update_of_ne hij _ _) (Function.update_of_ne hij _ _)

theorem queued_write {t : Traffic} {i : PipeId} (h : Queued t i) (id : ℤ) (data : List UInt8) :
    Queued ((PipeStep.write id data).apply t) i := by
  cases ho : openIndex t.pipes id with
  | none =>
    simp only [PipeStep.apply,pipeWrite,ho]
    exact h
  | some j =>
    simp only [PipeStep.apply,pipeWrite,ho,Traffic.accept]
    by_cases hij : i = j
    · subst hij
      obtain ⟨h1,h2,h3,_⟩ := writeLoop_spec h.ring data
      constructor
      · dsimp only
        rw [Function.update_self]
        exact h2
      · dsimp only
        rw [Function.update_self,Function.update_self,h3,h1,← h.bytes,List.append_assoc]
    · exact h.congr (Function.update_of_ne hij _ _) (Function.update_of_ne hij _ _) rfl

theorem queued_close {t : Traffic} {i : PipeId} (h : Queued t i) (id : ℤ) : Queued ((PipeStep.close id).apply t) i := by
  cases hj : pipeIndex id with
  | none =>
    simp only [PipeStep.apply,pipeClose,hj]
    exact h
  | some j =>
    simp only [PipeStep.apply,pipeClose,hj]
    by_cases hij : i = j
    · subst hij
      constructor
      · dsimp only
        rw [Function.update_self]
        exact h.ring
      · dsimp only
        rw [Function.update_self]
        exact h.bytes
    · exact h.congr (Function.update_of_ne hij _ _) rfl rfl

theorem readResume_spec {p : Pipe} (h : p.ring.Wf bufSize) (scheduling : Bool) (len : ℕ) :
    (readResume scheduling len p).2.ring.Wf bufSize ∧ buffered p =
      (readResume scheduling len p).1.bytes++buffered (readResume scheduling len p).2 := by
  unfold readResume
  split
  · split
    · exact ⟨h,rfl⟩
    · split <;> exact ⟨h,rfl⟩
  · have hle : (if len < p.count then len else p.count) ≤ p.count := by
      split <;> omega
    obtain ⟨h1,h2,_⟩ := readLoop_spec h hle
    exact ⟨h1,h2⟩

theorem queued_resume {t : Traffic} {i : PipeId} (h : Queued t i) (scheduling : Bool) (j : PipeId) (len : ℕ) :
    Queued ((PipeStep.resume scheduling j len).apply t) i := by
  simp only [PipeStep.apply,resumeAt,Traffic.take]
  by_cases hij : i = j
  · subst hij
    obtain ⟨h1,h2⟩ := readResume_spec h.ring scheduling len
    constructor
    · dsimp only
      rw [Function.update_self]
      exact h1
    · dsimp only
      rw [Function.update_self,Function.update_self,List.append_assoc,← h2]
      exact h.bytes
  · exact h.congr (Function.update_of_ne hij _ _) rfl (Function.update_of_ne hij _ _)

theorem queued_read {t : Traffic} {i : PipeId} (h : Queued t i) (scheduling : Bool) (id : ℤ) (len : ℕ) :
    Queued ((PipeStep.read scheduling id len).apply t) i := by
  cases ho : openIndex t.pipes id with
  | none =>
    simp only [PipeStep.apply,pipeRead,ho]
    exact h
  | some j =>
    have hr := queued_resume h scheduling j len
    simp only [PipeStep.apply,pipeRead,ho] at hr ⊢
    exact hr

/-! ## Runs -/

theorem Queued.apply {t : Traffic} {i : PipeId} (h : Queued t i) (step : PipeStep) : Queued (step.apply t) i := by
  cases step with
  | alloc => exact queued_alloc h
  | write id data => exact queued_write h id data
  | close id => exact queued_close h id
  | read scheduling id len => exact queued_read h scheduling id len
  | resume scheduling j len => exact queued_resume h scheduling j len

theorem Queued.run {t : Traffic} {i : PipeId} (h : Queued t i) (steps : List PipeStep) :
    Queued (PipeFifo.run t steps) i := by
  induction steps generalizing t with
  | nil => exact h
  | cons step steps ih => exact ih (h.apply step)

theorem queued_booted (i : PipeId) : Queued booted i := ⟨zeroPipe_wf false,rfl⟩

/-- After any interleaving of steps every pipe is a bounded queue: its indices are consistent, the bytes taken
and the bytes still buffered are the bytes accepted in this lifetime, in order, and a write accepts exactly
the prefix of its data that has room. -/
theorem pipe_fifo (steps : List PipeStep) (i : PipeId) :
    (((run booted steps).pipes i).head < 256 ∧ ((run booted steps).pipes i).tail < 256 ∧
      ((run booted steps).pipes i).count ≤ 256 ∧ ((run booted steps).pipes i).tail =
        (((run booted steps).pipes i).head+((run booted steps).pipes i).count) % 256) ∧
    (run booted steps).taken i++buffered ((run booted steps).pipes i) = (run booted steps).accepted i ∧
    ∀ id data, openIndex (run booted steps).pipes id = some i →
      (pipeWrite id data (run booted steps).pipes).1 =
        some (min data.length (256-((run booted steps).pipes i).count)) ∧
      (run booted (steps++[.write id data])).accepted i =
        (run booted steps).accepted i++data.take (min data.length (256-((run booted steps).pipes i).count)) := by
  have h := (queued_booted i).run steps
  refine ⟨⟨h.ring.head_lt,h.ring.tail_lt,h.ring.count_le,h.ring.tail_eq⟩,h.bytes,?_⟩
  intro id data ho
  have hw : (pipeWrite id data (run booted steps).pipes).1 =
      some (min data.length (256-((run booted steps).pipes i).count)) := by
    unfold pipeWrite
    rw [ho]
    exact congrArg some (writeLoop_spec h.ring data).1
  refine ⟨hw,?_⟩
  have hrun : run booted (steps++[.write id data]) = (PipeStep.write id data).apply (run booted steps) :=
    List.foldl_append
  rw [hrun]
  simp only [PipeStep.apply,ho,hw,Traffic.accept,Function.update_self]

end VesperOS.PipeFifo
