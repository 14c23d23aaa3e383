import VesperOS.Ipc.PipeStatements

/-! # Uninterrupted pipe calls

Run without an interrupt, the statements of a pipe function have together the effect of
the function as one step: `pipeWrite` for a write, `pipeRead` for a read up to its next
`process_yield`.
-/
namespace VesperOS.Uninterrupted
open RingBuffer Pipes Paging ProcessTable Scheduler InterruptFlag PipeStatements

/-- Some statements of the running context lead from one state to the other. -/
inductive Statements (K : KernelLayout) : PipeSystem → PipeSystem → Prop
  | done (s : PipeSystem) : Statements K s s
  | next {s s₁ s' : PipeSystem} : step K s .stmt = some s₁ → Statements K s₁ s' → Statements K s s'

section Inside
variable (s : PipeSystem) (i : PipeId) (p : Pipe)

/-- The state in which the running context of `s` is at `pc` in a call on pipe `i`, with `p` in the table. -/
def inside (pc : PipePc) : PipeSystem :=
  { s with
    pipes := Function.update s.pipes i p
    code := Function.update s.code s.here (some ⟨i,s.cpu.saved.length,pc⟩) }

/-- The state in which that call has returned. -/
def outside (result : Outcome) : PipeSystem :=
  { s with
    pipes := Function.update s.pipes i p
    code := Function.update s.code s.here none
    returned := Function.update s.returned s.here (some result) }

variable {i p} {pc : PipePc}

@[simp] theorem inside_pipe : (inside s i p pc).pipes i = p := Function.update_self _ _ _

@[simp] theorem inside_setPipe (p' : Pipe) : (inside s i p pc).setPipe i p' = inside s i p' pc := by
  unfold inside PipeSystem.setPipe
  dsimp only
  rw [Function.update_idem]

@[simp] theorem inside_goto {pc₀ : PipePc} (pc' : PipePc) :
    (inside s i p pc).goto ⟨i,s.cpu.saved.length,pc₀⟩ pc' = inside s i p pc' :=
  congrArg (fun code => ({ s with pipes := Function.update s.pipes i p, code := code } : PipeSystem))
    (Function.update_idem _ _ _)

@[simp] theorem inside_leave (result : Outcome) : (inside s i p pc).leave result = outside s i p result :=
  congrArg (fun code => (⟨s.cpu,Function.update s.pipes i p,code,
    Function.update s.returned s.here (some result)⟩ : PipeSystem)) (Function.update_idem _ _ _)

theorem setCode_inside : s.setCode (some ⟨i,s.cpu.saved.length,pc⟩) = inside s i (s.pipes i) pc := by
  unfold inside
  rw [Function.update_eq_self]
  rfl

theorem inside_step (K : KernelLayout) : PipeStatements.step K (inside s i p pc) .stmt =
    some ((inside s i p pc).stmt K ⟨i,s.cpu.saved.length,pc⟩) := by
  have hcode : (inside s i p pc).code (inside s i p pc).here = some ⟨i,s.cpu.saved.length,pc⟩ :=
    Function.update_self _ _ _
  rw [PipeStatements.step,hcode,Option.bind_some]
  exact if_pos rfl

end Inside

variable {K : KernelLayout} {s : PipeSystem} {i : PipeId}

/-- One statement, given what it computes. -/
theorem Statements.stmt {p : Pipe} {pc : PipePc} {s₁ s' : PipeSystem}
    (h : (inside s i p pc).stmt K ⟨i,s.cpu.saved.length,pc⟩ = s₁) (hrest : Statements K s₁ s') :
    Statements K (inside s i p pc) s' := by
  refine .next ?_ hrest
  rw [inside_step,h]

/-! ## Writing -/

/-- The state after a write of `written` bytes in all. -/
def wrote (s : PipeSystem) (i : PipeId) (p : Pipe) (written : ℕ) : PipeSystem :=
  outside (if 0 < written then s.wakeAll else s) i p (.write (some written))

theorem loopEnd_statements (p : Pipe) (written : ℕ) (rest : List UInt8) :
    Statements K ((inside s i p (.writeTest written rest)).loopEnd
      ⟨i,s.cpu.saved.length,.writeTest written rest⟩ written) (wrote s i p written) := by
  unfold PipeSystem.loopEnd wrote
  by_cases hw : 0 < written
  · rw [if_pos hw,if_pos hw,inside_goto]
    have hleave : (inside s.wakeAll i p (.writeWake written)).leave (.write (some written)) =
        outside s.wakeAll i p (.write (some written)) := inside_leave _ _
    exact .stmt hleave (.done _)
  · rw [if_neg hw,if_neg hw,inside_leave,Nat.eq_zero_of_not_pos hw]
    exact .done _

theorem store_stmt (p : Pipe) (written : ℕ) (b : UInt8) (rest : List UInt8) :
    (inside s i p (.writeByte written b rest)).stmt K ⟨i,s.cpu.saved.length,.writeByte written b rest⟩ =
      inside s i { p with buf := Function.update p.buf p.tail b } (.writeTail written rest) := by
  simp [PipeSystem.stmt]

theorem tail_stmt (p : Pipe) (written : ℕ) (rest : List UInt8) :
    (inside s i p (.writeTail written rest)).stmt K ⟨i,s.cpu.saved.length,.writeTail written rest⟩ =
      inside s i { p with tail := (p.tail+1) % bufSize } (.writeCount written rest) := by
  simp [PipeSystem.stmt]

theorem count_stmt (p : Pipe) (written : ℕ) (rest : List UInt8) :
    (inside s i p (.writeCount written rest)).stmt K ⟨i,s.cpu.saved.length,.writeCount written rest⟩ =
      inside s i { p with count := (p.count+1) % 2^32 } (.writeTest (written+1) rest) := by
  simp [PipeSystem.stmt]

/-- The three stores of a round are one `push`. -/
theorem round_pipe {p : Pipe} (b : UInt8) (hcount : (p.count+1) % 2^32 = p.count+1) :
    (⟨⟨Function.update p.buf p.tail b,p.head,(p.tail+1) % bufSize,(p.count+1) % 2^32⟩,p.isOpen⟩ : Pipe) =
      { p with ring := p.push bufSize b } := by
  rw [hcount]
  rfl

theorem write_statements (p : Pipe) (written : ℕ) (rest : List UInt8) :
    Statements K (inside s i p (.writeTest written rest))
      (wrote s i (writeLoop p rest).2 (written+(writeLoop p rest).1)) := by
  induction rest generalizing p written with
  | nil =>
    refine .stmt rfl ?_
    exact loopEnd_statements p written []
  | cons b rest ih =>
    unfold writeLoop
    by_cases hroom : p.count < bufSize
    · rw [if_pos hroom]
      have hcount : (p.count+1) % 2^32 = p.count+1 := by
        apply Nat.mod_eq_of_lt
        unfold bufSize at hroom
        omega
      have hround := ih { p with ring := p.push bufSize b } (written+1)
      rw [Nat.add_assoc,Nat.add_comm 1] at hround
      let stored : Pipe := ⟨⟨Function.update p.buf p.tail b,p.head,(p.tail+1) % bufSize,p.count⟩,p.isOpen⟩
      have hlast : (inside s i stored (.writeCount written rest)).stmt K
          ⟨i,s.cpu.saved.length,.writeCount written rest⟩ =
          inside s i { p with ring := p.push bufSize b } (.writeTest (written+1) rest) :=
        (count_stmt stored written rest).trans
          (congrArg (fun q => inside s i q (.writeTest (written+1) rest)) (round_pipe b hcount))
      refine .stmt ?_ (.stmt (store_stmt p written b rest) (.stmt (tail_stmt _ written rest) (.stmt hlast hround)))
      unfold PipeSystem.stmt
      dsimp only
      rw [inside_pipe,if_pos hroom,inside_goto]
    · rw [if_neg hroom]
      refine .stmt ?_ (loopEnd_statements p written (b :: rest))
      unfold PipeSystem.stmt
      dsimp only
      rw [inside_pipe,if_neg hroom]

/-- A write that nobody interrupts is `pipeWrite`, followed by a wake-up if a byte was stored. -/
theorem pipeWrite_uninterrupted (K : KernelLayout) (s : PipeSystem) (id : ℤ) (data : List UInt8) :
    ∃ s', Statements K (s.enter (.write id data)) s' ∧ s'.pipes = (pipeWrite id data s.pipes).2 ∧
      s'.returned s.here = some (.write (pipeWrite id data s.pipes).1) ∧ s'.code s.here = none ∧
      s'.cpu.kernel = if 0 < (pipeWrite id data s.pipes).1.getD 0 then processWakeAllBlocked s.cpu.kernel
        else s.cpu.kernel := by
  cases hi : openIndex s.pipes id with
  | none =>
    simp only [PipeSystem.enter,pipeWrite,hi]
    exact ⟨_,.done _,rfl,Function.update_self _ _ _,Function.update_self _ _ _,rfl⟩
  | some i =>
    have hrun := write_statements (K := K) (s := s) (i := i) (s.pipes i) 0 data
    rw [Nat.zero_add,← setCode_inside] at hrun
    simp only [PipeSystem.enter,pipeWrite,hi,Option.getD_some]
    refine ⟨_,hrun,?_⟩
    unfold wrote
    split <;> exact ⟨rfl,Function.update_self _ _ _,Function.update_self _ _ _,rfl⟩

/-! ## Reading -/

theorem byte_stmt (p : Pipe) (rest : ℕ) (got : List UInt8) :
    (inside s i p (.readByte rest got)).stmt K ⟨i,s.cpu.saved.length,.readByte rest got⟩ =
      inside s i p (.readHead rest (got++[p.buf p.head])) := by
  simp [PipeSystem.stmt]

theorem head_stmt (p : Pipe) (rest : ℕ) (got : List UInt8) :
    (inside s i p (.readHead rest got)).stmt K ⟨i,s.cpu.saved.length,.readHead rest got⟩ =
      inside s i { p with head := (p.head+1) % bufSize } (.readCount rest got) := by
  simp [PipeSystem.stmt]

/-- The two stores of a round are one `pop`. -/
theorem taken_pipe {p : Pipe} (hpos : 0 < p.count) (hp : p.count < 2^32) :
    (⟨⟨p.buf,(p.head+1) % bufSize,p.tail,(p.count+(2^32-1)) % 2^32⟩,p.isOpen⟩ : Pipe) =
      { p with ring := p.pop bufSize } := by
  have hcount : (p.count+(2^32-1)) % 2^32 = p.count-1 := by omega
  rw [hcount]
  rfl

theorem copy_statements {p : Pipe} {n : ℕ} (hn : n < p.count) (hp : p.count < 2^32) (got : List UInt8) :
    Statements K (inside s i p (.readByte n got))
      (outside s i (readLoop p (n+1)).2 (.read (.took (got++(readLoop p (n+1)).1)))) := by
  induction n generalizing p got with
  | zero =>
    refine .stmt (byte_stmt p 0 got) (.stmt (head_stmt p 0 _) (.stmt ?_ (.done _)))
    simp only [PipeSystem.stmt,inside_pipe,inside_setPipe,inside_leave,readLoop]
    rw [taken_pipe hn hp]
  | succ n ih =>
    have hpop : (p.pop bufSize).count = p.count-1 := rfl
    have hrest := ih (p := { p with ring := p.pop bufSize }) (by dsimp only; omega) (by dsimp only; omega)
      (got++[p.buf p.head])
    rw [List.append_assoc] at hrest
    refine .stmt (byte_stmt p (n+1) got) (.stmt (head_stmt p (n+1) _) (.stmt ?_ hrest))
    simp only [PipeSystem.stmt,inside_pipe,inside_setPipe,inside_goto]
    rw [taken_pipe (Nat.zero_lt_of_lt hn) hp]

/-- A reader with bytes to take copies them and returns. -/
theorem take_statements {p : Pipe} (hpos : p.count ≠ 0) (hp : p.count < 2^32) (len : ℕ) :
    Statements K (inside s i p (.readTest len))
      (outside s i (readResume true len p).2 (.read (readResume true len p).1)) := by
  have htest : (inside s i p (.readTest len)).stmt K ⟨i,s.cpu.saved.length,.readTest len⟩ =
      inside s i p (.readMin len) := by
    simp [PipeSystem.stmt,hpos]
  refine .stmt htest ?_
  unfold readResume
  rw [if_neg hpos]
  dsimp only
  generalize hn : (if len < p.count then len else p.count) = n
  have hle : n ≤ p.count := by
    rw [← hn]
    split <;> omega
  cases n with
  | zero =>
    refine .stmt ?_ (.done _)
    simp only [PipeSystem.stmt,inside_pipe,hn,inside_leave,readLoop]
  | succ n =>
    refine .stmt ?_ (copy_statements hle hp [])
    simp only [PipeSystem.stmt,inside_pipe,hn,inside_goto]

/-- A reader of an empty pipe fails if it is closed, and otherwise marks itself and stops before it yields. -/
theorem wait_statements {p : Pipe} {c : Slot} (hz : p.count = 0) (hc : s.cpu.kernel.current = some c) (len : ℕ) :
    Statements K (inside s i p (.readTest len)) (if p.isOpen = true
      then inside (s.setKernel (s.cpu.kernel.setState c .blocked)) i p (.readYield len)
      else outside s i p (.read .failed)) := by
  have htest : (inside s i p (.readTest len)).stmt K ⟨i,s.cpu.saved.length,.readTest len⟩ =
      inside s i p (.readOpen len) := by
    simp [PipeSystem.stmt,hz]
  refine .stmt htest ?_
  cases ho : p.isOpen with
  | false =>
    refine .stmt ?_ (.done _)
    simp [PipeSystem.stmt,ho]
  | true =>
    have hopen : (inside s i p (.readOpen len)).stmt K ⟨i,s.cpu.saved.length,.readOpen len⟩ =
        inside s i p (.readCurrent len) := by
      simp [PipeSystem.stmt,ho]
    have hcurrent : (inside s i p (.readCurrent len)).stmt K ⟨i,s.cpu.saved.length,.readCurrent len⟩ =
        inside s i p (.readMark len) := by
      have hcur : (inside s i p (.readCurrent len)).cpu.kernel.current = some c := hc
      simp [PipeSystem.stmt,hcur]
    have hmarked : (inside s i p (.readMark len)).markBlocked =
        inside (s.setKernel (s.cpu.kernel.setState c .blocked)) i p (.readMark len) := by
      unfold PipeSystem.markBlocked
      rw [show (inside s i p (.readMark len)).cpu.kernel.current = some c from hc]
      rfl
    refine .stmt hopen (.stmt hcurrent (.stmt ?_ (.done _)))
    simp only [PipeSystem.stmt,hmarked]
    exact inside_goto (s.setKernel (s.cpu.kernel.setState c .blocked)) (.readYield len)

/-- A read that nobody interrupts is `pipeRead`: it returns, or it stands marked before its `process_yield`. -/
theorem pipeRead_uninterrupted (K : KernelLayout) (s : PipeSystem) (id : ℤ) (len : ℕ) {c : Slot}
    (hc : s.cpu.kernel.current = some c) (hp : ∀ i, (s.pipes i).count < 2^32) :
    ∃ s', Statements K (s.enter (.read id len)) s' ∧ s'.pipes = (pipeRead true id len s.pipes).2 ∧
      if (pipeRead true id len s.pipes).1 = .blocked then
        s'.cpu.kernel = s.cpu.kernel.setState c .blocked ∧
          (s'.code s.here).map Activation.pc = some (.readYield len)
      else s'.cpu.kernel = s.cpu.kernel ∧ s'.code s.here = none ∧
        s'.returned s.here = some (.read (pipeRead true id len s.pipes).1) := by
  cases hi : openIndex s.pipes id with
  | none =>
    simp only [PipeSystem.enter,pipeRead,hi]
    exact ⟨_,.done _,rfl,rfl,Function.update_self _ _ _,Function.update_self _ _ _⟩
  | some i =>
    simp only [PipeSystem.enter,pipeRead,resumeAt,hi]
    by_cases hz : (s.pipes i).count = 0
    · have hrun := wait_statements (K := K) (i := i) hz hc len
      rw [← setCode_inside] at hrun
      refine ⟨_,hrun,?_⟩
      unfold readResume
      rw [if_pos hz]
      cases ho : (s.pipes i).isOpen with
      | false => exact ⟨rfl,rfl,Function.update_self _ _ _,Function.update_self _ _ _⟩
      | true =>
        refine ⟨rfl,rfl,?_⟩
        change Option.map Activation.pc
          (Function.update s.code s.here (some ⟨i,s.cpu.saved.length,.readYield len⟩) s.here) = some (.readYield len)
        rw [Function.update_self]
        rfl
    · have hrun := take_statements (K := K) (s := s) (i := i) hz (hp i) len
      rw [← setCode_inside] at hrun
      refine ⟨_,hrun,rfl,?_⟩
      rw [if_neg]
      · exact ⟨rfl,Function.update_self _ _ _,Function.update_self _ _ _⟩
      · unfold readResume
        rw [if_neg hz]
        exact fun hf => (nomatch hf)

end VesperOS.Uninterrupted
