import VesperOS.Process.InterruptFlag

/-! # The keyboard driver

`keyboard.c`. The interrupt handler runs to its end with IF clear and is one step.
`keyboard_getchar` is cut at every statement that reads or writes the ring buffer or
the process table; an interrupt that finds IF set may come between any two.
-/
namespace VesperOS.KeyboardDriver
open Paging ProcessTable Scheduler InterruptFlag

/-! ## Scancodes -/

def scancodeAscii : List Char :=
  ['\x00','\x00','1','2','3','4','5','6','7','8','9','0','-','=','\x08','\t',
   'q','w','e','r','t','y','u','i','o','p','[',']','\n','\x00','a','s',
   'd','f','g','h','j','k','l',';','\x27','\x60','\x00','\x5c','z','x','c','v',
   'b','n','m',',','.','/','\x00','*','\x00',' ']

def scancodeAsciiShift : List Char :=
  ['\x00','\x00','!','@','#','$','%','^','&','*','(',')','_','+','\x08','\t',
   'Q','W','E','R','T','Y','U','I','O','P','\x7b','\x7d','\n','\x00','A','S',
   'D','F','G','H','J','K','L',':','\x22','~','\x00','|','Z','X','C','V',
   'B','N','M','<','>','?','\x00','*','\x00',' ']

/-- `KEY_UP`, `KEY_DOWN`, `KEY_LEFT`, `KEY_RIGHT`, and 0 for the other extended codes. -/
def specialKey (scancode : UInt8) : UInt8 :=
  if scancode = 0x48 then 0x80
  else if scancode = 0x50 then 0x81
  else if scancode = 0x4B then 0x82
  else if scancode = 0x4D then 0x83
  else 0

/-! ## Ring buffer and interrupt handler -/

def kbBufSize : ℕ := 64

structure Keyboard where
  buf : ℕ → UInt8
  head : ℕ
  tail : ℕ
  shiftPressed : Bool
  extendedCode : Bool

def keyboardInit (kb : Keyboard) : Keyboard := ⟨kb.buf,0,0,false,false⟩

/-- The buffer part of `kb_push`; a character for a full buffer is dropped. -/
def kbPush (c : UInt8) (kb : Keyboard) : Keyboard :=
  let next := (kb.tail+1) % kbBufSize
  if next ≠ kb.head then { kb with buf := Function.update kb.buf kb.tail c, tail := next } else kb

/-- `keyboard_irq_handler`; the second component tells that `kb_push` was called, which wakes all BLOCKED processes. -/
def keyboardIrqHandler (scancode : UInt8) (kb : Keyboard) : Keyboard × Bool :=
  if scancode = 0xE0 then ({ kb with extendedCode := true },false)
  else if kb.extendedCode then
    let kb := { kb with extendedCode := false }
    if scancode &&& 0x80 = 0 then
      if specialKey scancode ≠ 0 then (kbPush (specialKey scancode) kb,true) else (kb,false)
    else (kb,false)
  else if scancode &&& 0x80 ≠ 0 then
    let released := scancode &&& 0x7F
    if released = 0x2A ∨ released = 0x36 then ({ kb with shiftPressed := false },false) else (kb,false)
  else if scancode = 0x2A ∨ scancode = 0x36 then ({ kb with shiftPressed := true },false)
  else if scancode.toNat < scancodeAscii.length then
    let table := if kb.shiftPressed then scancodeAsciiShift else scancodeAscii
    let c := UInt8.ofNat (table.getD scancode.toNat '\x00').toNat
    if c ≠ 0 then (kbPush c kb,true) else (kb,false)
  else (kb,false)

/-! ## `keyboard_getchar`, statement by statement -/

/-- The next statement: the test of the loop, the test of `current_process`, the mark and the yield of `process_block`,
HLT, and the two that take the character. -/
inductive GetcharPc where
  | test
  | current
  | mark
  | yield
  | hlt
  | take
  | advance (c : UInt8)
  deriving DecidableEq

/-- A context inside `keyboard_getchar`, which it called from inside `depth` gates. -/
structure Waiting where
  depth : ℕ
  pc : GetcharPc
  deriving DecidableEq

/-- A context is named by its stack. -/
structure KeySystem where
  cpu : Cpu
  kb : Keyboard
  code : Option Slot → Option Waiting
  returned : Option Slot → Option UInt8

/-- After `keyboard_init`, `process_init` and the STI of `kernel_main`. -/
def boot (K : KernelLayout) (mach : Machine) (old : Slot → Proc) (kb : Keyboard) : KeySystem :=
  ⟨InterruptFlag.boot K mach old,keyboardInit kb,fun _ => none,fun _ => none⟩

namespace KeySystem
variable (s : KeySystem)

/-- The running context. -/
def here : Option Slot := s.cpu.kernel.esp.owner

def goto (w : Waiting) (pc : GetcharPc) : KeySystem :=
  { s with code := Function.update s.code s.here (some { w with pc := pc }) }

def setKernel (k : Kernel) : KeySystem := { s with cpu := { s.cpu with kernel := k } }

/-- The `if` of `process_block` with the assignment under it. -/
def markBlocked : KeySystem :=
  match s.cpu.kernel.current with
  | none => s
  | some c => s.setKernel (s.cpu.kernel.setState c .blocked)

/-- One statement of the running context. HLT may end at any time, as if by an interrupt of another device. -/
def stmt (K : KernelLayout) (w : Waiting) : KeySystem :=
  match w.pc with
  | .test => s.goto w (if s.kb.head = s.kb.tail then .current else .take)
  | .current => s.goto w (if s.cpu.kernel.current = none then .hlt else .mark)
  | .mark => s.markBlocked.goto w .yield
  | .yield => { s.goto w .test with cpu := s.cpu.switch K s.cpu.kernel }
  | .hlt => s.goto w .test
  | .take => s.goto w (.advance (s.kb.buf s.kb.head))
  | .advance c =>
    { s with
      kb := { s.kb with head := (s.kb.head+1) % kbBufSize }
      code := Function.update s.code s.here none
      returned := Function.update s.returned s.here (some c) }

/-- The keyboard interrupt. -/
def key (scancode : UInt8) : KeySystem :=
  let r := keyboardIrqHandler scancode s.kb
  if r.2 then { s.setKernel (processWakeAllBlocked s.cpu.kernel) with kb := r.1 } else { s with kb := r.1 }

def enter : KeySystem := { s with code := Function.update s.code s.here (some ⟨s.cpu.saved.length,.test⟩) }

end KeySystem

inductive KeyStep where
  | cpu (a : CpuStep)
  | enter
  | stmt
  | key (scancode : UInt8)

/-- What the timer handler does: it yields and returns. -/
def timerStep : CpuStep → Bool
  | .iret => true
  | .call .yield => true
  | _ => false

/-- Inside `keyboard_getchar` the processor takes interrupts and runs the timer handler. -/
def KeySystem.mayStep (s : KeySystem) (a : CpuStep) : Bool :=
  match s.code s.here with
  | none => true
  | some w => a matches .irq || (w.depth < s.cpu.saved.length && timerStep a)

def step (K : KernelLayout) (s : KeySystem) : KeyStep → Option KeySystem
  | .cpu a => if s.mayStep a then (InterruptFlag.step K s.cpu a).map (fun cpu => { s with cpu := cpu }) else none
  | .enter => if (s.code s.here).isNone && !s.cpu.userMode then some s.enter else none
  | .stmt => (s.code s.here).bind (fun w => if s.cpu.saved.length = w.depth then some (s.stmt K w) else none)
  | .key scancode => if s.cpu.iflag then some (s.key scancode) else none

/-- The states of the runs whose steps all meet `ok`. -/
inductive Reached (K : KernelLayout) (mach : Machine) (old : Slot → Proc) (kb : Keyboard)
    (ok : KeySystem → KeyStep → Prop) : KeySystem → Prop
  | boot : Reached K mach old kb ok (boot K mach old kb)
  | step {s s' : KeySystem} {a : KeyStep} : Reached K mach old kb ok s → ok s a → step K s a = some s' →
      Reached K mach old kb ok s'

/-- A run that ends where a step fails its check. -/
def run (K : KernelLayout) (check : KeySystem → KeyStep → Bool) (s : KeySystem) : List KeyStep → Option KeySystem
  | [] => some s
  | a :: steps => if check s a then (step K s a).bind (fun s' => run K check s' steps) else none

theorem Reached.run {K : KernelLayout} {mach : Machine} {old : Slot → Proc} {kb : Keyboard}
    {ok : KeySystem → KeyStep → Prop} {check : KeySystem → KeyStep → Bool} (hcheck : ∀ s a, check s a = true → ok s a)
    {s s' : KeySystem} (h : Reached K mach old kb ok s) {steps : List KeyStep}
    (hrun : run K check s steps = some s') : Reached K mach old kb ok s' := by
  induction steps generalizing s with
  | nil =>
    cases hrun
    exact h
  | cons a steps ih =>
    rw [KeyboardDriver.run,Option.ite_none_right_eq_some] at hrun
    obtain ⟨s₁,hstep,hrest⟩ := Option.bind_eq_some_iff.mp hrun.2
    exact ih (h.step (hcheck s a hrun.1) hstep) hrest

end VesperOS.KeyboardDriver
