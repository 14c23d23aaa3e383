import VesperOS.Ipc.Pipe
import VesperOS.Process.InterruptFlag

/-! # Pipes, statement by statement

`pipe_read` and `pipe_write` cut at every statement that reads or writes a pipe or the
process table. A context inside one of them stands at a statement, and an interrupt that
finds IF set may come between any two. The counters are `uint32_t` and wrap around.
`pipe_alloc` is one step.
-/
namespace VesperOS.PipeStatements
open RingBuffer Pipes Paging ProcessTable Scheduler InterruptFlag

/-- The next statement. A reader has `rest` bytes to copy after the one it is at, and has copied `got`; a writer has
gone `written` times through its loop and has `rest` to store after the byte it is at. -/
inductive PipePc where
  | readTest (len : ℕ)
  | readOpen (len : ℕ)
  | readCurrent (len : ℕ)
  | readMark (len : ℕ)
  | readYield (len : ℕ)
  | readMin (len : ℕ)
  | readByte (rest : ℕ) (got : List UInt8)
  | readHead (rest : ℕ) (got : List UInt8)
  | readCount (rest : ℕ) (got : List UInt8)
  | writeTest (written : ℕ) (rest : List UInt8)
  | writeByte (written : ℕ) (byte : UInt8) (rest : List UInt8)
  | writeTail (written : ℕ) (rest : List UInt8)
  | writeCount (written : ℕ) (rest : List UInt8)
  | writeWake (written : ℕ)
  | closeWake

/-- The pipe function a context is inside of; it was called from inside `depth` gates. -/
structure Activation where
  pipe : PipeId
  depth : ℕ
  pc : PipePc

inductive Outcome where
  | read (result : ReadResult)
  | write (result : Option ℕ)
  | alloc (result : Option PipeId)
  | close
  deriving DecidableEq

/-- A context is named by its stack. -/
structure PipeSystem where
  cpu : Cpu
  pipes : PipeTable
  code : Option Slot → Option Activation
  returned : Option Slot → Option Outcome

def boot (K : KernelLayout) (mach : Machine) (old : Slot → Proc) : PipeSystem :=
  ⟨InterruptFlag.boot K mach old,pipeInit,fun _ => none,fun _ => none⟩

namespace PipeSystem
variable (s : PipeSystem)

/-- The running context. -/
def here : Option Slot := s.cpu.kernel.esp.owner

def setCode (act : Option Activation) : PipeSystem := { s with code := Function.update s.code s.here act }

def goto (act : Activation) (pc : PipePc) : PipeSystem := s.setCode (some { act with pc := pc })

def leave (result : Outcome) : PipeSystem :=
  { s.setCode none with returned := Function.update s.returned s.here (some result) }

def setPipe (i : PipeId) (p : Pipe) : PipeSystem := { s with pipes := Function.update s.pipes i p }

@[simp] theorem setPipe_self (i : PipeId) (p : Pipe) : (s.setPipe i p).pipes i = p := Function.update_self _ _ _

theorem setPipe_other {i j : PipeId} (h : j ≠ i) (p : Pipe) : (s.setPipe i p).pipes j = s.pipes j :=
  Function.update_of_ne h _ _

def setKernel (k : Kernel) : PipeSystem := { s with cpu := { s.cpu with kernel := k } }

/-- The `if` of `process_block` with the assignment under it. -/
def markBlocked : PipeSystem :=
  match s.cpu.kernel.current with
  | none => s
  | some c => s.setKernel (s.cpu.kernel.setState c .blocked)

/-- The end of the loop of `pipe_write`. -/
def loopEnd (act : Activation) (written : ℕ) : PipeSystem :=
  if 0 < written then s.goto act (.writeWake written) else s.leave (.write (some 0))

def wakeAll : PipeSystem := s.setKernel (processWakeAllBlocked s.cpu.kernel)

/-- One statement of the running context. -/
def stmt (K : KernelLayout) (act : Activation) : PipeSystem :=
  let p := s.pipes act.pipe
  match act.pc with
  | .readTest len => s.goto act (if p.count = 0 then .readOpen len else .readMin len)
  | .readOpen len => if !p.isOpen then s.leave (.read .failed) else s.goto act (.readCurrent len)
  | .readCurrent len =>
    if s.cpu.kernel.current = none then s.leave (.read .failed) else s.goto act (.readMark len)
  | .readMark len => s.markBlocked.goto act (.readYield len)
  | .readYield len => { s.goto act (.readTest len) with cpu := s.cpu.switch K s.cpu.kernel }
  | .readMin len =>
    match if len < p.count then len else p.count with
    | 0 => s.leave (.read (.took []))
    | n+1 => s.goto act (.readByte n [])
  | .readByte rest got => s.goto act (.readHead rest (got++[p.buf p.head]))
  | .readHead rest got =>
    (s.setPipe act.pipe { p with head := (p.head+1) % bufSize }).goto act (.readCount rest got)
  | .readCount rest got =>
    let s' := s.setPipe act.pipe { p with count := (p.count+(2^32-1)) % 2^32 }
    match rest with
    | 0 => s'.leave (.read (.took got))
    | n+1 => s'.goto act (.readByte n got)
  | .writeTest written rest =>
    match rest with
    | [] => s.loopEnd act written
    | b :: rest => if p.count < bufSize then s.goto act (.writeByte written b rest) else s.loopEnd act written
  | .writeByte written b rest =>
    (s.setPipe act.pipe { p with buf := Function.update p.buf p.tail b }).goto act (.writeTail written rest)
  | .writeTail written rest =>
    (s.setPipe act.pipe { p with tail := (p.tail+1) % bufSize }).goto act (.writeCount written rest)
  | .writeCount written rest =>
    (s.setPipe act.pipe { p with count := (p.count+1) % 2^32 }).goto act (.writeTest (written+1) rest)
  | .writeWake written => s.wakeAll.leave (.write (some written))
  | .closeWake => s.wakeAll.leave .close

end PipeSystem

inductive PipeCall where
  | alloc
  | read (id : ℤ) (len : ℕ)
  | write (id : ℤ) (data : List UInt8)
  | close (id : ℤ)

/-- A call with its first statement, the check of the id. -/
def PipeSystem.enter (s : PipeSystem) : PipeCall → PipeSystem
  | .alloc => { s with pipes := (pipeAlloc s.pipes).2 }.leave (.alloc (pipeAlloc s.pipes).1)
  | .read id len =>
    match openIndex s.pipes id with
    | none => s.leave (.read .failed)
    | some i => s.setCode (some ⟨i,s.cpu.saved.length,.readTest len⟩)
  | .write id data =>
    match openIndex s.pipes id with
    | none => s.leave (.write none)
    | some i => s.setCode (some ⟨i,s.cpu.saved.length,.writeTest 0 data⟩)
  | .close id =>
    match pipeIndex id with
    | none => s.leave .close
    | some i =>
      (s.setPipe i { s.pipes i with isOpen := false }).setCode (some ⟨i,s.cpu.saved.length,.closeWake⟩)

inductive PipeStep where
  | cpu (a : CpuStep)
  | enter (call : PipeCall)
  | stmt

/-- What an interrupt handler does: the timer's yields, the keyboard's wakes, both return. -/
def handlerStep : CpuStep → Bool
  | .iret => true
  | .call .yield => true
  | .call .wakeAllBlocked => true
  | _ => false

/-- Inside a pipe function the processor takes interrupts and runs their handlers. -/
def PipeSystem.mayStep (s : PipeSystem) (a : CpuStep) : Bool :=
  match s.code s.here,a with
  | none,_ => true
  | some _,.irq => true
  | some act,a => act.depth < s.cpu.saved.length && handlerStep a

def step (K : KernelLayout) (s : PipeSystem) : PipeStep → Option PipeSystem
  | .cpu a => if s.mayStep a then (InterruptFlag.step K s.cpu a).map (fun cpu => { s with cpu := cpu }) else none
  | .enter call => if (s.code s.here).isNone && !s.cpu.userMode then some (s.enter call) else none
  | .stmt => (s.code s.here).bind (fun act => if s.cpu.saved.length = act.depth then some (s.stmt K act) else none)

/-- The states of the runs whose steps all meet `ok`. -/
inductive Reached (K : KernelLayout) (mach : Machine) (old : Slot → Proc) (ok : PipeSystem → PipeStep → Prop) :
    PipeSystem → Prop
  | boot : Reached K mach old ok (boot K mach old)
  | step {s s' : PipeSystem} {a : PipeStep} : Reached K mach old ok s → ok s a → step K s a = some s' →
      Reached K mach old ok s'

/-- A run that ends where a step fails its check. -/
def run (K : KernelLayout) (check : PipeSystem → PipeStep → Bool) (s : PipeSystem) (steps : List PipeStep) :
    Option PipeSystem :=
  steps.foldlM (fun s a => if check s a then step K s a else none) s

theorem Reached.run {K : KernelLayout} {mach : Machine} {old : Slot → Proc} {ok : PipeSystem → PipeStep → Prop}
    {check : PipeSystem → PipeStep → Bool} (hcheck : ∀ s a, check s a = true → ok s a) {s s' : PipeSystem}
    (h : Reached K mach old ok s) {steps : List PipeStep} (hrun : run K check s steps = some s') :
    Reached K mach old ok s' := by
  induction steps generalizing s with
  | nil =>
    cases hrun
    exact h
  | cons a steps ih =>
    unfold PipeStatements.run at hrun
    rw [List.foldlM_cons] at hrun
    obtain ⟨s₁,hstep,hrest⟩ := Option.bind_eq_some_iff.mp hrun
    rw [Option.ite_none_right_eq_some] at hstep
    exact ih (h.step (hcheck s a hstep.1) hstep.2) hrest

end VesperOS.PipeStatements
