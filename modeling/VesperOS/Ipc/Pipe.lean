import VesperOS.Base.RingBuffer

/-! # Pipes

`pipe.c`: eight ring buffers of 256 bytes. The source buffer of a write is the list of
its bytes. A read is cut where it may block: `readResume` is the loop head of `pipe_read`
with everything that follows it up to the next `process_block`. Both the call and every
wake-up of the caller run through it.
-/
namespace VesperOS.Pipes
open RingBuffer

/-- `PIPE_BUF_SIZE`. -/
def bufSize : ℕ := 256

/-- `pipe_t`. -/
structure Pipe extends ring : RingQueue UInt8 where
  isOpen : Bool

/-- An index of `pipes[MAX_PIPES]`. -/
abbrev PipeId := Fin 8
abbrev PipeTable := PipeId → Pipe

def zeroPipe : Pipe := ⟨⟨fun _ => 0,0,0,0⟩,false⟩

def pipeInit : PipeTable := fun _ => zeroPipe

def pipeAlloc (ps : PipeTable) : Option PipeId × PipeTable :=
  match (List.finRange 8).find? (fun i => !(ps i).isOpen) with
  | some i => (some i,Function.update ps i { zeroPipe with isOpen := true })
  | none => (none,ps)

/-- The range check on a pipe id. -/
def pipeIndex (id : ℤ) : Option PipeId :=
  if h : 0 ≤ id ∧ id < 8 then some ⟨id.toNat,by omega⟩ else none

/-- The check at the entry of `pipe_write` and `pipe_read`. -/
def openIndex (ps : PipeTable) (id : ℤ) : Option PipeId := (pipeIndex id).filter (fun i => (ps i).isOpen)

/-- The loop of `pipe_write`; the first component is `written`. -/
def writeLoop : Pipe → List UInt8 → ℕ × Pipe
  | p,[] => (0,p)
  | p,b :: rest =>
    if p.count < bufSize then
      let r := writeLoop { p with ring := p.push bufSize b } rest
      (r.1+1,r.2)
    else (0,p)

/-- `none` is the error -1. -/
def pipeWrite (id : ℤ) (data : List UInt8) (ps : PipeTable) : Option ℕ × PipeTable :=
  match openIndex ps id with
  | none => (none,ps)
  | some i => (some (writeLoop (ps i) data).1,Function.update ps i (writeLoop (ps i) data).2)

/-- The loop of `pipe_read` that copies `n` bytes out. -/
def readLoop : Pipe → ℕ → List UInt8 × Pipe
  | p,0 => ([],p)
  | p,n+1 =>
    let r := readLoop { p with ring := p.pop bufSize } n
    (p.buf p.head :: r.1,r.2)

inductive ReadResult where
  | failed
  | blocked
  | took (bytes : List UInt8)
  deriving DecidableEq

/-- The bytes a reader received. -/
def ReadResult.bytes : ReadResult → List UInt8
  | .took bytes => bytes
  | _ => []

/-- From the head of the waiting loop on; `scheduling` is `current_process != NULL`. -/
def readResume (scheduling : Bool) (len : ℕ) (p : Pipe) : ReadResult × Pipe :=
  if p.count = 0 then
    if !p.isOpen then (.failed,p)
    else if !scheduling then (.failed,p)
    else (.blocked,p)
  else
    let toRead := if len < p.count then len else p.count
    (.took (readLoop p toRead).1,(readLoop p toRead).2)

def resumeAt (scheduling : Bool) (i : PipeId) (len : ℕ) (ps : PipeTable) : ReadResult × PipeTable :=
  ((readResume scheduling len (ps i)).1,Function.update ps i (readResume scheduling len (ps i)).2)

def pipeRead (scheduling : Bool) (id : ℤ) (len : ℕ) (ps : PipeTable) : ReadResult × PipeTable :=
  match openIndex ps id with
  | none => (.failed,ps)
  | some i => resumeAt scheduling i len ps

def pipeClose (id : ℤ) (ps : PipeTable) : PipeTable :=
  match pipeIndex id with
  | none => ps
  | some i => Function.update ps i { ps i with isOpen := false }

/-! ## The two loops -/

/-- The bytes in the buffer of a pipe. -/
def buffered (p : Pipe) : List UInt8 := p.contents bufSize

/-- A write accepts a prefix of the data, as long as the free room, and queues it behind what is there. -/
theorem writeLoop_spec {p : Pipe} (h : p.ring.Wf bufSize) (data : List UInt8) :
    (writeLoop p data).1 = min data.length (bufSize-p.count) ∧ (writeLoop p data).2.ring.Wf bufSize ∧
      buffered (writeLoop p data).2 = buffered p++data.take (min data.length (bufSize-p.count)) ∧
      (writeLoop p data).2.isOpen = p.isOpen := by
  induction data generalizing p with
  | nil => simp [writeLoop,h]
  | cons b rest ih =>
    unfold writeLoop
    by_cases hroom : p.count < bufSize
    · rw [if_pos hroom]
      obtain ⟨h1,h2,h3,h4⟩ := ih (p := { p with ring := p.push bufSize b }) (h.push hroom b)
      have hcount : (p.push bufSize b).count = p.count+1 := rfl
      have hcontents : buffered { p with ring := p.push bufSize b } = buffered p++[b] :=
        RingQueue.contents_push h hroom b
      have hmin : min (b :: rest).length (bufSize-p.count) = min rest.length (bufSize-(p.count+1)) + 1 := by
        rw [List.length_cons]
        omega
      dsimp only at h1 h3 ⊢
      rw [hcount] at h1 h3
      refine ⟨by rw [h1,hmin],h2,?_,h4⟩
      rw [h3,hcontents,hmin,List.take_succ_cons,List.append_assoc]
      rfl
    · rw [if_neg hroom]
      have hzero : min (b :: rest).length (bufSize-p.count) = 0 := by
        rw [Nat.sub_eq_zero_of_le (Nat.le_of_not_lt hroom)]
        exact Nat.min_zero _
      rw [hzero]
      exact ⟨rfl,h,by simp,rfl⟩

/-- A copy of `n` buffered bytes takes the front of the queue. -/
theorem readLoop_spec {p : Pipe} (h : p.ring.Wf bufSize) {n : ℕ} (hn : n ≤ p.count) :
    (readLoop p n).2.ring.Wf bufSize ∧ buffered p = (readLoop p n).1++buffered (readLoop p n).2 ∧
      (readLoop p n).1.length = n ∧ (readLoop p n).2.count = p.count-n ∧ (readLoop p n).2.isOpen = p.isOpen := by
  induction n generalizing p with
  | zero => exact ⟨h,rfl,rfl,rfl,rfl⟩
  | succ n ih =>
    have hpos : 0 < p.count := by omega
    have hcount : (p.pop bufSize).count = p.count-1 := rfl
    have hcontents : buffered p = p.buf p.head :: buffered { p with ring := p.pop bufSize } :=
      RingQueue.contents_pop h hpos
    obtain ⟨h1,h2,h3,h4,h5⟩ := ih (p := { p with ring := p.pop bufSize }) (h.pop hpos) (by dsimp only; omega)
    unfold readLoop
    dsimp only at h4 ⊢
    rw [hcount] at h4
    refine ⟨h1,?_,?_,by rw [h4]; omega,h5⟩
    · rw [hcontents,h2]
      rfl
    · rw [List.length_cons,h3]

end VesperOS.Pipes
