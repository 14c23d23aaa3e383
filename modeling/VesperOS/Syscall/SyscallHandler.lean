import VesperOS.Base.AccessProgram
import VesperOS.Process.DescriptorOwners
import VesperOS.Ipc.Pipe

/-! # The system call handler

`syscall_handler` of `syscall.c`. The kernel reaches the buffers of the caller at the
addresses it was given, through the directory in CR3; these loads and stores are a
program over translated memory. The tables of the kernel are kept apart from that memory.
-/
namespace VesperOS.SyscallHandler
open ByteMemory Paging ProcessTable Scheduler DiskProgram FaultPattern VesperFs FileDescriptors Pipes AccessProgram
open DescriptorOwners

/-- The registers of `registers_t` that the handler uses. -/
structure Regs where
  eax : UInt32
  ebx : UInt32
  ecx : UInt32
  edx : UInt32

/-- The kernel's tables and the text that went to the screen. -/
structure SysState where
  kernel : Kernel
  fds : FdTable
  pipes : PipeTable
  screen : Bytes

/-- The drive and the clock during a call. -/
structure Env extends Medium where
  hour : UInt8
  minute : UInt8
  second : UInt8

inductive Reply where
  | returns (eax : UInt32)
  /-- `process_exit` does not return. -/
  | exited
  /-- `pipe_read` called `process_block`. -/
  | waiting (i : PipeId)
  /-- In `timer_sleep_ms`. -/
  | sleeping (ms : ℕ)

/-- The arms of the switch; `resume` is a `pipe_read` that is woken up. -/
inductive SysCall where
  | exit
  | write (buf len : ℕ)
  | getPid
  | sleep (ms : ℕ)
  | yield
  | kill (pid : ℕ)
  | opens (name : ℕ)
  | read (fd : ℤ) (len buf : ℕ)
  | close (fd : ℤ)
  | getTime
  | pipeCreate
  | pipeWrite (id : ℤ) (len buf : ℕ)
  | pipeRead (id : ℤ) (len buf : ℕ)
  | unknown (num : ℕ)
  | resume (i : PipeId) (len buf : ℕ)

def decode (r : Regs) : SysCall :=
  match r.eax.toNat with
  | 0 => .exit
  | 1 => .write r.ebx.toNat r.ecx.toNat
  | 2 => .getPid
  | 3 => .sleep r.ebx.toNat
  | 4 => .yield
  | 5 => .kill r.ebx.toNat
  | 6 => .opens r.ebx.toNat
  | 7 => .read (toInt r.ebx.toNat) r.ecx.toNat r.edx.toNat
  | 8 => .close (toInt r.ebx.toNat)
  | 9 => .getTime
  | 10 => .pipeCreate
  | 11 => .pipeWrite (toInt r.ebx.toNat) r.ecx.toNat r.edx.toNat
  | 12 => .pipeRead (toInt r.ebx.toNat) r.ecx.toNat r.edx.toNat
  | num => .unknown num

/-- `(uint32_t)n` of an `int`. -/
def ofInt (n : ℤ) : UInt32 := UInt32.ofNat (n % 2^32).toNat

/-! ## Buffers of the caller -/

def loadBytes (buf : ℕ) : ℕ → ℕ → Prog Bytes
  | 0, _ => pure []
  | n+1, i => .load ((buf+i) % 2^32) fun b => do
    let rest ← loadBytes buf n (i+1)
    pure (b :: rest)

def storeBytes (buf : ℕ) : Bytes → ℕ → Prog Unit
  | [], _ => pure ()
  | b :: rest, i => .store ((buf+i) % 2^32) b (storeBytes buf rest (i+1))

/-- The loop of `pipe_write`, with `written` and the number of bytes left of `len`. -/
def pipeWriteLoop (buf : ℕ) : ℕ → ℕ → Pipe → Prog (ℕ × Pipe)
  | 0, written, p => pure (written,p)
  | n+1, written, p =>
    if p.count < bufSize then
      .load ((buf+written) % 2^32) fun b => pipeWriteLoop buf n (written+1) { p with ring := p.push bufSize b }
    else pure (written,p)

/-- The loop of `pipe_read`. -/
def pipeReadLoop (buf : ℕ) : ℕ → ℕ → Pipe → Prog Pipe
  | 0, _, p => pure p
  | n+1, i, p => .store ((buf+i) % 2^32) (p.buf p.head) (pipeReadLoop buf n (i+1) { p with ring := p.pop bufSize })

/-- `strcmp(a, b) == 0` with `b` a string of the caller. The fuel is more than the string `a` is long. -/
def strcmpAt (a : ℕ → UInt8) (name : ℕ) : ℕ → ℕ → Prog Bool
  | 0, _ => pure false
  | fuel+1, j => .load ((name+j) % 2^32) fun b =>
    if a j ≠ 0 ∧ b ≠ 0 ∧ a j = b then strcmpAt a name fuel (j+1) else pure (a j == b)

/-- The bytes of `dir_buf`; those behind it read as zero. -/
def dirBytes : ℕ := 512*fsDirSectors

/-- The entry loop of `fs_open`. -/
def findEntryAt (dir : Mem) (name : ℕ) : List ℕ → Prog (Option ℕ)
  | [] => pure none
  | i :: rest =>
    if Active dir i then do
      if ← strcmpAt (fun j => dir (entryAddr i+j)) name (dirBytes+1) 0 then pure (some i) else findEntryAt dir name rest
    else findEntryAt dir name rest

def fdOpenAt (env : Env) (name pid : ℕ) (t : FdTable) : Prog (ℤ × FdTable) :=
  match freeSlot t with
  | none => pure (-1,t)
  | some i =>
    match env.exec readDir with
    | none => pure (-1,t)
    | some dir => do
      match ← findEntryAt dir name (List.range fsMaxFiles) with
      | none => pure (-1,t)
      | some e => pure (i.val,Function.update t i ⟨⟨startLba dir e,fileSize dir e,0,true⟩,pid,true⟩)

/-! ## The switch -/

/-- `pipe_read` behind its first check. -/
def resumeRead (K : KernelLayout) (s : SysState) (i : PipeId) (len buf : ℕ) : Prog (Reply × SysState) :=
  let p := s.pipes i
  if p.count = 0 then
    if !p.isOpen then pure (.returns (ofInt (-1)),s)
    else if s.kernel.current = none then pure (.returns (ofInt (-1)),s)
    else pure (.waiting i,{ s with kernel := processBlock K s.kernel })
  else do
    let toRead := if len < p.count then len else p.count
    let p ← pipeReadLoop buf toRead 0 p
    pure (.returns (UInt32.ofNat toRead),{ s with pipes := Function.update s.pipes i p })

def text (str : String) : Bytes := str.toList.map (fun c => UInt8.ofNat c.toNat)

def handle (K : KernelLayout) (env : Env) (s : SysState) : SysCall → Prog (Reply × SysState)
  | .exit => pure (.exited,{ s with kernel := processExit K s.kernel })
  | .write buf len => do
    let bytes ← loadBytes buf len 0
    pure (.returns (UInt32.ofNat len),{ s with screen := s.screen++bytes })
  | .getPid => pure (.returns (UInt32.ofNat (callerPid s.kernel)),s)
  | .sleep ms => pure (.sleeping ms,s)
  | .yield => pure (.returns 0,{ s with kernel := processYield K s.kernel })
  | .kill pid => pure (.returns (ofInt (processKill pid s.kernel).1),{ s with kernel := (processKill pid s.kernel).2 })
  | .opens name => do
    let (fd,t) ← fdOpenAt env name (callerPid s.kernel) s.fds
    pure (.returns (ofInt fd),{ s with fds := t })
  | .read fd len buf => do
    let (n,out,t) := env.exec (fdRead fd len (callerPid s.kernel) s.fds)
    storeBytes buf out 0
    pure (.returns (ofInt n),{ s with fds := t })
  | .close fd => pure (.returns 0,{ s with fds := fdClose fd (callerPid s.kernel) s.fds })
  | .getTime => pure (.returns (UInt32.ofNat (env.hour.toNat*3600+env.minute.toNat*60+env.second.toNat)),s)
  | .pipeCreate =>
    match pipeAlloc s.pipes with
    | (none,ps) => pure (.returns (ofInt (-1)),{ s with pipes := ps })
    | (some i,ps) => pure (.returns (UInt32.ofNat i.val),{ s with pipes := ps })
  | .pipeWrite id len buf =>
    match openIndex s.pipes id with
    | none => pure (.returns (ofInt (-1)),s)
    | some i => do
      let (written,p) ← pipeWriteLoop buf len 0 (s.pipes i)
      pure (.returns (UInt32.ofNat written),{ s with
        pipes := Function.update s.pipes i p
        kernel := if 0 < written then processWakeAllBlocked s.kernel else s.kernel })
  | .pipeRead id len buf =>
    match openIndex s.pipes id with
    | none => pure (.returns (ofInt (-1)),s)
    | some i => resumeRead K s i len buf
  | .unknown num =>
    pure (.returns (ofInt (-1)),{ s with screen := s.screen++text "[syscall] unknown: "++text (toString num)++text "\n" })
  | .resume i len buf => resumeRead K s i len buf

/-! ## The processor's view -/

/-- Translation by the directory at physical address `pd`; ring 0 ignores the user flag. -/
def translate (pd : ℕ) : Translate := fun m v =>
  let pde := entry m pd (v/4194304)
  let pte := entry m (pageBase pde) (v/4096 % 1024)
  if isPresent pde = true ∧ isPresent pte = true then some (pageBase pte+v % 4096) else none

/-- A call in a state, with the addresses it accesses for its caller. -/
def outcome (K : KernelLayout) (env : Env) (s : SysState) (c : SysCall) : Outcome (Reply × SysState) :=
  run (translate s.kernel.cr3) (handle K env s c) s.kernel.mach.mem

/-- `none` when a page fault halted the kernel. -/
def syscallHandler (K : KernelLayout) (env : Env) (r : Regs) (s : SysState) : Option (Reply × SysState) :=
  let o := outcome K env s (decode r)
  o.result.map fun (reply,s') => (reply,{ s' with kernel := { s'.kernel with mach := ⟨o.mem,s'.kernel.mach.pmm⟩ } })

end VesperOS.SyscallHandler
