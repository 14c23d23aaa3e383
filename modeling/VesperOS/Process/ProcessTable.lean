import VesperOS.Memory.Paging

/-! # The process table

`process.c` and `process_yield` of `process.asm`. A stack pointer is kept as the
stack it points into and the number of words pushed on it, so that the switch of
`esp` decides which context runs on. The timer interrupt calls `process_yield`
like any other code; the switch itself is one step here.
-/
namespace VesperOS.ProcessTable
open Paging

inductive ProcState where
  | unused
  | ready
  | running
  | blocked
  | zombie
  deriving DecidableEq

abbrev Slot := Fin 16

/-- The slot of the idle process, which `process_init` creates first. -/
abbrev idleSlot : Slot := 0

/-- Where a stack pointer points: the kernel stack of a slot, or the boot stack. -/
structure StackPtr where
  owner : Option Slot
  depth : ℕ
  deriving DecidableEq

/-- `process_t`; the name is only printed. -/
structure Proc where
  esp : StackPtr
  pdPhys : ℕ
  state : ProcState
  pid : ℕ
  isUser : Bool
  userEip : ℕ
  userEsp : ℕ

/-- The globals of `process.c`, memory, and the registers the switch changes. -/
structure Kernel where
  mach : Machine
  table : Slot → Proc
  current : Option Slot
  nextPid : ℕ
  esp : StackPtr
  cr3 : ℕ
  esp0 : Option Slot

def Kernel.setProc (k : Kernel) (i : Slot) (p : Proc) : Kernel :=
  { k with table := Function.update k.table i p }

def Kernel.setState (k : Kernel) (i : Slot) (st : ProcState) : Kernel :=
  k.setProc i { k.table i with state := st }

/-! ## Creation -/

def allocSlot (k : Kernel) : Option Slot :=
  (List.finRange 16).find? (fun i => (k.table i).state = .unused)

theorem allocSlot_unused {k : Kernel} {i : Slot} (h : allocSlot k = some i) : (k.table i).state = .unused := by
  have hi := List.find?_some h
  exact of_decide_eq_true hi

/-- The frame that `process_yield` will pop: a return address and four registers. -/
def buildInitialKstack (i : Slot) : StackPtr := ⟨some i,5⟩

/-- The common part of `process_create` and `process_create_user`. -/
def createProc (isUser : Bool) (userEip userEsp pdPhys : ℕ) (k : Kernel) : Option Slot × Kernel :=
  match allocSlot k with
  | none => (none,k)
  | some i =>
    let pid := (k.nextPid+1) % 2^32
    (some i,{ k.setProc i ⟨buildInitialKstack i,pdPhys,.ready,pid,isUser,userEip,userEsp⟩ with nextPid := pid })

def processCreate (k : Kernel) : Option Slot × Kernel := createProc false 0 0 0 k

def processCreateUser (userEip userEsp pdPhys : ℕ) (k : Kernel) : Option Slot × Kernel :=
  createProc true userEip userEsp pdPhys k

/-- The boot context runs with `current_process` NULL on the boot stack. -/
def processInit (K : KernelLayout) (mach : Machine) (old : Slot → Proc) : Kernel :=
  (processCreate ⟨mach,fun i => { old i with state := .unused, pid := 0, pdPhys := 0, isUser := false },
    none,0,⟨none,0⟩,K.pageDirectory,none⟩).2

/-! ## Scheduling -/

/-- First slot of a list whose state passes the test. -/
def firstSlot (k : Kernel) (test : ProcState → Bool) (slots : List Slot) : Option Slot :=
  slots.find? (fun i => test (k.table i).state)

/-- The slots in round-robin order after `i`, which comes last. -/
def after (i : Slot) : List Slot := (List.finRange 16).map (fun n => i+n+1)

def schedNext (k : Kernel) : Slot × Kernel :=
  match k.current with
  | none =>
    match firstSlot k (fun st => st = .ready ∨ st = .running) (List.finRange 16) with
    | some i => (i,k.setState i .running)
    | none => (0,k.setState 0 .running)
  | some c =>
    let k := if (k.table c).state = .running then k.setState c .ready else k
    match firstSlot k (fun st => st = .ready) (after c) with
    | some i => (i,k.setState i .running)
    | none => (0,k.setState 0 .running)

def processBeforeSwitch (K : KernelLayout) (next : Slot) (k : Kernel) : Kernel :=
  { k with
    esp0 := some next
    cr3 := if (k.table next).pdPhys ≠ 0 then (k.table next).pdPhys else K.pageDirectory }

/-- The call and the four pushes of `process_yield`. -/
def StackPtr.pushFrame (sp : StackPtr) : StackPtr := { sp with depth := sp.depth+5 }
def StackPtr.popFrame (sp : StackPtr) : StackPtr := { sp with depth := sp.depth-5 }

/-- `current_process->esp = esp`, skipped when there is no current process. -/
def saveEsp (k : Kernel) : Kernel :=
  match k.current with
  | none => k
  | some c => k.setProc c { k.table c with esp := k.esp }

def processYield (K : KernelLayout) (k : Kernel) : Kernel :=
  let k := saveEsp { k with esp := k.esp.pushFrame }
  let (next,k) := schedNext k
  let k := processBeforeSwitch K next { k with current := some next }
  { k with esp := (k.table next).esp.popFrame }

/-! ## Termination, blocking, waking -/

/-- Free the page directory of a slot, if it has one, and mark the slot. -/
def terminate (i : Slot) (k : Kernel) : Kernel :=
  let pd := (k.table i).pdPhys
  let k := if pd ≠ 0 then { k with mach := pagingDestroyPd pd k.mach } else k
  k.setProc i { k.table i with pdPhys := 0, state := .zombie }

def processExit (K : KernelLayout) (k : Kernel) : Kernel :=
  processYield K (match k.current with
    | none => k
    | some c => terminate c k)

/-- The slot that `process_kill` finds for a PID. -/
def killSlot (pid : ℕ) (k : Kernel) : Option Slot :=
  (List.finRange 16).find? (fun i => (k.table i).pid = pid ∧ (k.table i).state ≠ .unused ∧
    (k.table i).state ≠ .zombie)

theorem killSlot_spec {pid : ℕ} {k : Kernel} {i : Slot} (h : killSlot pid k = some i) :
    (k.table i).pid = pid ∧ (k.table i).state ≠ .unused ∧ (k.table i).state ≠ .zombie := by
  have hi := List.find?_some h
  exact of_decide_eq_true hi

def processKill (pid : ℕ) (k : Kernel) : ℤ × Kernel :=
  match killSlot pid k with
  | none => (-1,k)
  | some i => (0,terminate i k)

def processBlock (K : KernelLayout) (k : Kernel) : Kernel :=
  processYield K (match k.current with
    | none => k
    | some c => k.setState c .blocked)

/-- `process_wake`; a NULL pointer is ignored. -/
def processWake (p : Option Slot) (k : Kernel) : Kernel :=
  match p with
  | none => k
  | some i => if (k.table i).state = .blocked then k.setState i .ready else k

def processWakeAllBlocked (k : Kernel) : Kernel :=
  { k with table := fun i =>
      if (k.table i).state = .blocked then { k.table i with state := .ready } else k.table i }

end VesperOS.ProcessTable
