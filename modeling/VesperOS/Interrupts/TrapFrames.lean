import VesperOS.Base.StackMachine

/-! # Interrupt stubs

The entry and exit code of `isr.asm`, between the words that the processor pushes when it takes an
interrupt and the IRET that takes them off again. Between entry and exit the handler runs on the same
stack; what it must leave alone is the frame it got a pointer to.
-/
namespace VesperOS.TrapFrames
open ByteMemory StackMachine

/-- What the interrupted code sees of the processor. -/
structure Context where
  gp : Reg → UInt32
  seg : Seg → UInt16
  esp : UInt32
  ss : UInt16
  eip : UInt32
  cs : UInt16
  eflags : UInt32

/-! ## The processor -/

/-- The vectors with an error code of the processor. -/
def errorVectors : List ℕ := [8,10,11,12,13,14,17]

/-- From ring 3 the processor changes to the stack in the TSS. -/
def Context.fromUser (x : Context) : Bool := x.cs &&& 3 = 3

/-- The words that are pushed before the first instruction of the stub, in this order. -/
def Context.pushed (x : Context) (error : List UInt32) : List UInt32 :=
  (if x.fromUser then [x.ss.toUInt32,x.esp] else [])++[x.eflags,x.cs.toUInt32,x.eip]++error

/-- IF, TF, NT, RF and VM are cleared in an interrupt gate. -/
def gateFlags (eflags : UInt32) : UInt32 := eflags &&& 0xFFFCBCFF

def Context.entryFile (x : Context) (ss0 : UInt16) : File :=
  ⟨x.gp,x.seg,if x.fromUser then ss0 else x.ss,gateFlags x.eflags,x.eflags &&& 0x40 ≠ 0⟩

def Context.entryEsp (x : Context) (esp0 : UInt32) : UInt32 := if x.fromUser then esp0 else x.esp

/-- The processor at the first instruction of a stub. -/
def deliver (ss0 : UInt16) (esp0 : UInt32) (error : List UInt32) (x : Context) (m : Mem) : Cpu :=
  Cpu.pushAll (x.pushed error) ⟨x.entryFile ss0,x.entryEsp esp0,m⟩

/-- A selector of ring 3 on the stack makes IRET take off a stack pointer as well. -/
def iret (c : Cpu) : Context :=
  let user := c.peek 1 &&& 3 = 3
  ⟨c.gp,c.seg,if user then c.peek 3 else c.esp+12,if user then (c.peek 4).toUInt16 else c.ss,c.peek 0,
    (c.peek 1).toUInt16,c.peek 2⟩

/-! ## `isr.asm` -/

def isrNoErrCode (n : UInt32) : List Instr := [.pushImm 0,.pushImm n]
def isrErrCode (n : UInt32) : List Instr := [.pushImm n]
def irqStub (n : UInt32) : List Instr := [.pushImm 0,.pushImm (n+32)]

/-- The stubs `isr0` to `isr19`, `irq0` to `irq15` and `isr_syscall`, by vector. -/
def stub (v : ℕ) : Option (List Instr) :=
  if v = 8 then some (isrErrCode 8)
  else if v = 10 then some (isrErrCode 10)
  else if v = 11 then some (isrErrCode 11)
  else if v = 12 then some (isrErrCode 12)
  else if v = 13 then some (isrErrCode 13)
  else if v = 14 then some (isrErrCode 14)
  else if v = 17 then some (isrErrCode 17)
  else if v < 20 then some (isrNoErrCode (UInt32.ofNat v))
  else if 32 ≤ v ∧ v < 48 then some (irqStub (UInt32.ofNat (v-32)))
  else if v = 0x80 then some [.pushImm 0,.pushImm 0x80]
  else none

/-- `common_stub` and the same code in `isr_syscall`, up to the call. -/
def saveCode : List Instr :=
  [.pusha,.pushSeg .ds,.pushSeg .es,.pushSeg .fs,.pushSeg .gs,.movLow .eax 0x10,.movSeg .ds .eax,.movSeg .es .eax,
    .movSeg .fs .eax,.movSeg .gs .eax,.pushEsp]

/-- From the return of the handler to the IRET. -/
def restoreCode : List Instr := [.addEsp 1,.popSeg .gs,.popSeg .fs,.popSeg .es,.popSeg .ds,.popa,.addEsp 2]

/-- `registers_t`. -/
structure Registers where
  gs : UInt32
  fs : UInt32
  es : UInt32
  ds : UInt32
  edi : UInt32
  esi : UInt32
  ebp : UInt32
  oldEsp : UInt32
  ebx : UInt32
  edx : UInt32
  ecx : UInt32
  eax : UInt32
  intNo : UInt32
  errCode : UInt32
  eip : UInt32
  cs : UInt32
  eflags : UInt32

/-- The fields from offset 0 on. -/
def Registers.words (r : Registers) : List UInt32 :=
  [r.gs,r.fs,r.es,r.ds,r.edi,r.esi,r.ebp,r.oldEsp,r.ebx,r.edx,r.ecx,r.eax,r.intNo,r.errCode,r.eip,r.cs,r.eflags]

/-- The frame of an interrupt: the registers of the interrupted code, the vector and the error code. -/
def Context.registers (x : Context) (v : ℕ) (error : List UInt32) (oldEsp : UInt32) : Registers where
  gs := (x.seg .gs).toUInt32
  fs := (x.seg .fs).toUInt32
  es := (x.seg .es).toUInt32
  ds := (x.seg .ds).toUInt32
  edi := x.gp .edi
  esi := x.gp .esi
  ebp := x.gp .ebp
  oldEsp := oldEsp
  ebx := x.gp .ebx
  edx := x.gp .edx
  ecx := x.gp .ecx
  eax := x.gp .eax
  intNo := UInt32.ofNat v
  errCode := error.headD 0
  eip := x.eip
  cs := x.cs.toUInt32
  eflags := x.eflags

/-- The handler is called with a pointer to the frame on top of the stack. -/
def enter (code : List Instr) (ss0 : UInt16) (esp0 : UInt32) (error : List UInt32) (x : Context) (m : Mem) : Cpu :=
  exec (code++saveCode) (deliver ss0 esp0 error x m)

/-- The words below the frame, for a trap from ring 3. -/
def Context.outer (x : Context) : List UInt32 := if x.fromUser then [x.esp,x.ss.toUInt32] else []

/-- The handler returns to its caller. Its argument and all registers but the stack pointer may have changed, and the
EAX of the frame. -/
structure Returns (c c' : Cpu) (eax : UInt32) (n : ℕ) : Prop where
  esp : c'.esp = c.esp
  ss : c'.ss = c.ss
  frame : ∀ k, 1 ≤ k → k < n → k ≠ 12 → c'.peek k = c.peek k
  eax : c'.peek 12 = eax

/-! ## The code on lists -/

theorem stub_cases {v : ℕ} {code : List Instr} (h : stub v = some code) :
    (v ∈ errorVectors ∧ code = [.pushImm (UInt32.ofNat v)]) ∨
    (v ∉ errorVectors ∧ code = [.pushImm 0,.pushImm (UInt32.ofNat v)]) := by
  by_cases he : v ∈ errorVectors
  · left
    refine ⟨he,?_⟩
    simp only [errorVectors,List.mem_cons,List.not_mem_nil,or_false] at he
    rcases he with rfl | rfl | rfl | rfl | rfl | rfl | rfl <;> exact (Option.some.inj h).symm
  · right
    refine ⟨he,?_⟩
    simp only [errorVectors,List.mem_cons,List.not_mem_nil,or_false,not_or] at he
    obtain ⟨h8,h10,h11,h12,h13,h14,h17⟩ := he
    rw [stub,if_neg h8,if_neg h10,if_neg h11,if_neg h12,if_neg h13,if_neg h14,if_neg h17] at h
    split at h
    · exact (Option.some.inj h).symm
    · split at h
      · rename_i hirq
        have hv : UInt32.ofNat (v-32)+32 = UInt32.ofNat v := by
          rw [← Nat.sub_add_cancel hirq.1,UInt32.ofNat_add]
          rfl
        rw [← Option.some.inj h,irqStub,hv]
      · split at h
        · rename_i h80
          rw [← Option.some.inj h,h80]
          rfl
        · cases h

/-- Four segment registers are pushed after the general ones. -/
theorem execThread_save {t : Thread} (hroom : t.limit+4*(t.stack.length+12) ≤ t.top) :
    execThread [.pusha,.pushSeg .ds,.pushSeg .es,.pushSeg .fs,.pushSeg .gs] t = some { t with
      stack := (t.seg .gs).toUInt32 :: (t.seg .fs).toUInt32 :: (t.seg .es).toUInt32 :: (t.seg .ds).toUInt32 ::
        t.gp .edi :: t.gp .esi :: t.gp .ebp :: t.esp :: t.gp .ebx :: t.gp .edx :: t.gp .ecx :: t.gp .eax :: t.stack } := by
  have hpusha : t.limit+4*(t.stack.length+(Cpu.saved t.file t.esp).length) ≤ t.top := by
    change t.limit+4*(t.stack.length+8) ≤ t.top
    omega
  rw [execThread,stepThread,Thread.pushAll_room hpusha,Option.bind_some]
  simp only [execThread,stepThread]
  rw [Thread.pushAll_room (by simp [Cpu.saved]; omega),Option.bind_some,Thread.pushAll_room (by simp [Cpu.saved]; omega),
    Option.bind_some,Thread.pushAll_room (by simp [Cpu.saved]; omega),Option.bind_some,
    Thread.pushAll_room (by simp [Cpu.saved]; omega)]
  rfl

/-- All data segments get one selector, by way of AX. -/
theorem execThread_dataSegments (selector : UInt16) (t : Thread) :
    ∃ f : File, f.ss = t.ss ∧ f.eflags = t.eflags ∧ (∀ r ≠ .eax, f.gp r = t.gp r) ∧ (∀ s, f.seg s = selector) ∧
      execThread [.movLow .eax selector,.movSeg .ds .eax,.movSeg .es .eax,.movSeg .fs .eax,.movSeg .gs .eax] t =
        some { t with file := f } := by
  refine ⟨_,?_,?_,?_,?_,rfl⟩
  · rfl
  · rfl
  · exact fun r hr => File.set_gp_of_ne hr _ t.file
  · intro s
    cases s <;> exact setLow_toUInt16 (t.gp .eax) selector

/-- A general register is in the eighth word from the first one of `popa` on. -/
theorem execThread_restoreCode {t : Thread} {arg n e : UInt32} {r : Registers} {rest : List UInt32}
    (hst : t.stack = arg :: r.words.take 12++n :: e :: rest) :
    ∃ f : File, execThread restoreCode t = some { t with file := f, stack := rest } ∧ f.ss = t.ss ∧
      (∀ s, f.seg s = match s with
        | .gs => r.gs.toUInt16
        | .fs => r.fs.toUInt16
        | .es => r.es.toUInt16
        | .ds => r.ds.toUInt16) ∧
      ∀ g, f.gp g = match g with
        | .edi => r.edi
        | .esi => r.esi
        | .ebp => r.ebp
        | .ebx => r.ebx
        | .edx => r.edx
        | .ecx => r.ecx
        | .eax => r.eax := by
  obtain ⟨file,limit,top,stack,heap⟩ := t
  dsimp only at hst
  subst hst
  simp only [restoreCode,execThread,stepThread]
  rw [Thread.pop_room (by simp),Option.bind_some,Thread.pop_room (by simp [Registers.words]),Option.bind_some,
    Thread.pop_room (by simp [Registers.words]),Option.bind_some,Thread.pop_room (by simp [Registers.words]),
    Option.bind_some,Thread.pop_room (by simp [Registers.words]),Option.bind_some,
    Thread.pop_room (by simp [Registers.words]),Option.bind_some,Thread.pop_room (by simp [Registers.words])]
  refine ⟨_,rfl,rfl,fun s => ?_,fun g => ?_⟩
  · cases s <;> rfl
  · cases g <;> rfl

theorem execThread_saveCode {t : Thread} (hroom : t.limit+4*(t.stack.length+13) ≤ t.top) :
    ∃ f : File, f.ss = t.ss ∧ f.eflags = t.eflags ∧ (∀ s, f.seg s = 0x10) ∧
      execThread saveCode t = some { t with
        file := f
        stack := UInt32.ofNat (t.top-4*(t.stack.length+12)) :: (t.seg .gs).toUInt32 :: (t.seg .fs).toUInt32 ::
          (t.seg .es).toUInt32 :: (t.seg .ds).toUInt32 :: t.gp .edi :: t.gp .esi :: t.gp .ebp :: t.esp :: t.gp .ebx ::
          t.gp .edx :: t.gp .ecx :: t.gp .eax :: t.stack } := by
  have hcode : saveCode = List.append [.pusha,.pushSeg .ds,.pushSeg .es,.pushSeg .fs,.pushSeg .gs]
      (List.append [.movLow .eax 0x10,.movSeg .ds .eax,.movSeg .es .eax,.movSeg .fs .eax,.movSeg .gs .eax] [.pushEsp]) := rfl
  rw [hcode,List.append_eq,execThread_append,execThread_save (by omega),Option.bind_some,List.append_eq,execThread_append]
  obtain ⟨f,hss,hfl,-,hseg,hrun⟩ := execThread_dataSegments 0x10 { t with
    stack := (t.seg .gs).toUInt32 :: (t.seg .fs).toUInt32 :: (t.seg .es).toUInt32 :: (t.seg .ds).toUInt32 ::
      t.gp .edi :: t.gp .esi :: t.gp .ebp :: t.esp :: t.gp .ebx :: t.gp .edx :: t.gp .ecx :: t.gp .eax :: t.stack }
  refine ⟨f,hss,hfl,hseg,?_⟩
  rw [hrun,Option.bind_some]
  simp only [execThread,stepThread]
  rw [Thread.pushAll_room (by simp; omega)]
  rfl

/-- The words below the vector, from the top down. -/
theorem Context.pushed_reverse (x : Context) (error : List UInt32) :
    (x.pushed error).reverse = error.reverse++(x.eip :: x.cs.toUInt32 :: x.eflags :: x.outer) := by
  unfold Context.pushed Context.outer
  split <;> simp

theorem Context.outer_length (x : Context) : x.outer.length ≤ 2 := by
  unfold Context.outer
  split
  · exact le_rfl
  · exact Nat.zero_le 2

/-- Every stub leaves the vector and an error code. -/
theorem execThread_stub {v : ℕ} {code : List Instr} (hv : stub v = some code) (x : Context) {error : List UInt32}
    (he : error.length = if v ∈ errorVectors then 1 else 0) {t : Thread} (hst : t.stack = (x.pushed error).reverse)
    (hroom : t.limit+4*7 ≤ t.top) :
    execThread code t = some { t with
      stack := UInt32.ofNat v :: error.headD 0 :: x.eip :: x.cs.toUInt32 :: x.eflags :: x.outer } := by
  have houter := x.outer_length
  rw [x.pushed_reverse] at hst
  obtain ⟨file,limit,top,stack,heap⟩ := t
  dsimp only at hst hroom
  rcases stub_cases hv with ⟨hmem,rfl⟩ | ⟨hmem,rfl⟩
  · rw [if_pos hmem] at he
    obtain ⟨e,rfl⟩ := List.length_eq_one_iff.mp he
    subst hst
    simp only [execThread,stepThread]
    rw [Thread.pushAll_room (by simp; omega)]
    rfl
  · rw [if_neg hmem] at he
    obtain rfl := List.length_eq_zero_iff.mp he
    subst hst
    simp only [execThread,stepThread]
    rw [Thread.pushAll_room (by simp; omega),Option.bind_some,Thread.pushAll_room (by simp; omega)]
    rfl

/-- The pointer on top, the frame and the words below it. -/
theorem execThread_enter {v : ℕ} {code : List Instr} (hv : stub v = some code) (x : Context) {error : List UInt32}
    (he : error.length = if v ∈ errorVectors then 1 else 0) {t : Thread} (hst : t.stack = (x.pushed error).reverse)
    (hgp : t.gp = x.gp) (hsegs : t.seg = x.seg) (hroom : t.limit+80 ≤ t.top) {words : List UInt32}
    (hw : words = (x.registers v error (UInt32.ofNat (t.top-4*(x.outer.length+5)))).words++x.outer) :
    ∃ f : File, f.ss = t.ss ∧ f.eflags = t.eflags ∧ (∀ s, f.seg s = 0x10) ∧
      execThread (code++saveCode) t =
        some { t with file := f, stack := UInt32.ofNat (t.top-4*words.length) :: words } := by
  have houter := x.outer_length
  have hstub := execThread_stub hv x he hst (by omega)
  obtain ⟨f,hss,hfl,hseg,hrun⟩ := execThread_saveCode (t := { t with
    stack := UInt32.ofNat v :: error.headD 0 :: x.eip :: x.cs.toUInt32 :: x.eflags :: x.outer })
    (by simp only [List.length_cons]; omega)
  refine ⟨f,hss,hfl,hseg,?_⟩
  have hlen : words.length = x.outer.length+17 := by
    rw [hw,List.length_append,add_comm]
    rfl
  rw [execThread_append,hstub,Option.bind_some,hrun,hlen,hw,Context.registers,Registers.words]
  simp only [hgp,hsegs,Thread.esp,List.length_cons,List.cons_append,List.nil_append]

/-! ## From interrupt to IRET -/

theorem Holds.of_peek {c : Cpu} {ws : List UInt32} (hlt : c.esp.toNat+4*ws.length < 2^32)
    (h : ∀ k (hk : k < ws.length), c.peek k = ws[k]) : Holds c.mem c.esp.toNat ws := by
  intro k hk
  have haddr : (c.esp+4*UInt32.ofNat k).toNat = c.esp.toNat+4*k := by
    simp only [UInt32.toNat_add,UInt32.toNat_mul,UInt32.toNat_ofNat,UInt32.toNat_ofNat']
    omega
  rw [← haddr]
  exact h k hk

theorem Context.pushed_length (x : Context) (error : List UInt32) :
    (x.pushed error).length = x.outer.length+3+error.length := by
  have h := congrArg List.length (x.pushed_reverse error)
  simp only [List.length_reverse,List.length_append,List.length_cons] at h
  omega

theorem Context.entered {v : ℕ} {code : List Instr} (hv : stub v = some code) (x : Context) {error : List UInt32}
    (he : error.length = if v ∈ errorVectors then 1 else 0) (ss0 : UInt16) (esp0 : UInt32) (m : Mem) {limit : ℕ}
    (hroom : limit+80 ≤ (x.entryEsp esp0).toNat) {words : List UInt32}
    (hw : words = (x.registers v error (UInt32.ofNat ((x.entryEsp esp0).toNat-4*(x.outer.length+5)))).words++x.outer) :
    ∃ f : File, f.ss = (x.entryFile ss0).ss ∧ f.eflags = gateFlags x.eflags ∧ (∀ s, f.seg s = 0x10) ∧
      Follows (enter code ss0 esp0 error x m) ⟨f,limit,(x.entryEsp esp0).toNat,
        UInt32.ofNat ((x.entryEsp esp0).toNat-4*words.length) :: words,m⟩ := by
  have houter := x.outer_length
  have herror : error.length ≤ 1 := by
    rw [he]
    split
    · exact le_rfl
    · exact Nat.zero_le 1
  have hstart : Follows ⟨x.entryFile ss0,x.entryEsp esp0,m⟩ ⟨x.entryFile ss0,limit,(x.entryEsp esp0).toNat,[],m⟩ :=
    ⟨rfl,rfl,(Nat.le_add_right _ _).trans hroom,(x.entryEsp esp0).toNat_lt,nofun,fun _ _ => rfl⟩
  have hpushed := hstart.pushAll (x.pushed error) (by
    rw [x.pushed_length,List.length_nil]
    dsimp only
    omega)
  rw [List.append_nil] at hpushed
  obtain ⟨f,hss,hfl,hseg,hrun⟩ := execThread_enter hv x he (t := ⟨x.entryFile ss0,limit,(x.entryEsp esp0).toNat,
    (x.pushed error).reverse,m⟩) rfl rfl rfl hroom hw
  exact ⟨f,hss,hfl,hseg,hpushed.exec hrun⟩

theorem Registers.words_eax (r : Registers) (eax : UInt32) (rest : List UInt32) :
    ({ r with eax := eax } : Registers).words++rest = (r.words++rest).set 11 eax := rfl

/-- What the exit code finds when the handler has returned. -/
theorem Returns.follows {c c' : Cpu} {t : Thread} {eax arg : UInt32} {r : Registers} {rest : List UInt32}
    (h : Follows c t) (hst : t.stack = arg :: (r.words++rest)) (hret : Returns c c' eax (18+rest.length)) :
    Follows c' ⟨c'.file,c.esp.toNat,t.top,c'.peek 0 :: (({ r with eax := eax } : Registers).words++rest),c'.mem⟩ := by
  have hesp := h.esp
  have htop := h.top_lt
  have hwords : (r.words++rest).length = 17+rest.length := List.length_append
  have hlen : t.stack.length = 18+rest.length := by
    rw [hst,List.length_cons,hwords]
    omega
  rw [r.words_eax]
  refine ⟨rfl,?_,?_,htop,?_,fun _ _ => rfl⟩
  · simp only [hret.esp,List.length_cons,List.length_set]
    omega
  · rw [hret.esp]
  · apply Holds.of_peek
    · simp only [hret.esp,List.length_cons,List.length_set]
      omega
    · intro k hk
      cases k with
      | zero => rfl
      | succ k =>
        simp only [List.length_cons,List.length_set,hwords] at hk
        rw [List.getElem_cons_succ]
        by_cases h11 : k = 11
        · subst h11
          rw [List.getElem_set_self]
          exact hret.eax
        · rw [List.getElem_set_ne (Ne.symm h11),hret.frame (k+1) (Nat.succ_pos k) (by omega) (by omega),
            h.peek (by omega),hst,List.getD_cons_succ,
            List.getD_eq_getElem?_getD,List.getElem?_eq_getElem (by omega),Option.getD_some]

theorem user_selector (cs : UInt16) : (cs.toUInt32 &&& 3 = 3) ↔ (cs &&& 3 = 3) := by
  rw [show (3 : UInt32) = (3 : UInt16).toUInt32 from rfl,← UInt16.toUInt32_and,UInt16.toUInt32_inj]

/-- IRET on the words of an interrupt. -/
theorem Context.iret_outer (x : Context) {c : Cpu} {t : Thread} (h : Follows c t)
    (hst : t.stack = x.eip :: x.cs.toUInt32 :: x.eflags :: x.outer) (hss : x.fromUser ∨ c.ss = x.ss)
    (htop : x.fromUser ∨ t.top = x.esp.toNat) :
    iret c = ⟨c.gp,c.seg,x.esp,x.ss,x.eip,x.cs,x.eflags⟩ := by
  have hlen : 3 ≤ t.stack.length := by
    rw [hst]
    exact Nat.le_add_left 3 _
  have h0 : c.peek 0 = x.eip := (h.peek (by omega)).trans (by rw [hst]; rfl)
  have h1 : c.peek 1 = x.cs.toUInt32 := (h.peek (by omega)).trans (by rw [hst]; rfl)
  have h2 : c.peek 2 = x.eflags := (h.peek (by omega)).trans (by rw [hst]; rfl)
  unfold iret
  simp only [h0,h1,h2,user_selector,UInt16.toUInt16_toUInt32]
  by_cases hu : x.cs &&& 3 = 3
  · have hout : x.outer = [x.esp,x.ss.toUInt32] := if_pos (decide_eq_true hu)
    rw [hout] at hst
    have hfive : t.stack.length = 5 := by
      rw [hst]
      rfl
    have h3 : c.peek 3 = x.esp := (h.peek (by omega)).trans (by rw [hst]; rfl)
    have h4 : c.peek 4 = x.ss.toUInt32 := (h.peek (by omega)).trans (by rw [hst]; rfl)
    rw [if_pos hu,if_pos hu,h3,h4,UInt16.toUInt16_toUInt32]
  · have hfrom : ¬x.fromUser = true := fun he => hu (of_decide_eq_true he)
    have hout : x.outer = [] := if_neg hfrom
    rw [hout] at hst
    have hesp := h.esp
    have htop_lt := h.top_lt
    rw [hst,List.length_cons,List.length_cons,List.length_singleton] at hesp
    have hback : c.esp+12 = x.esp := by
      apply UInt32.toNat_inj.mp
      rw [← htop.resolve_left hfrom,← hesp,UInt32.toNat_add]
      change (c.esp.toNat+12)%2^32 = _
      omega
    rw [if_neg hu,if_neg hu,hss.resolve_left hfrom,hback]

theorem Context.fromUser_false_esp (x : Context) (esp0 : UInt32) :
    x.fromUser ∨ (x.entryEsp esp0).toNat = x.esp.toNat := by
  unfold Context.entryEsp
  split
  · left; assumption
  · right; rfl

theorem Context.fromUser_false_ss (x : Context) (ss0 : UInt16) : x.fromUser ∨ (x.entryFile ss0).ss = x.ss := by
  unfold Context.entryFile
  by_cases h : x.fromUser
  · exact Or.inl h
  · exact Or.inr (if_neg h)

/-- The way back restores everything but EAX, whatever the handler did to the registers. -/
theorem Context.left {v : ℕ} (x : Context) {error : List UInt32} {oldEsp eax arg : UInt32} {c c' : Cpu} {t : Thread}
    (h : Follows c t) (hst : t.stack = arg :: ((x.registers v error oldEsp).words++x.outer))
    (hss : x.fromUser ∨ c.ss = x.ss) (htop : x.fromUser ∨ t.top = x.esp.toNat)
    (hret : Returns c c' eax (18+x.outer.length)) :
    iret (exec restoreCode c') = { x with gp := Function.update x.gp .eax eax } := by
  have hf := hret.follows h hst
  obtain ⟨f,hrun,hfss,hseg,hgp⟩ := execThread_restoreCode (t := ⟨c'.file,c.esp.toNat,t.top,
    c'.peek 0 :: (({ x.registers v error oldEsp with eax := eax } : Registers).words++x.outer),c'.mem⟩)
    (r := { x.registers v error oldEsp with eax := eax }) rfl
  have hend := hf.exec hrun
  have hfile : (exec restoreCode c').file = f := hend.file
  rw [x.iret_outer hend rfl (hss.imp_right fun hcs => by rw [hfile,hfss]; exact hret.ss.trans hcs) htop,hfile]
  congr 1
  · funext g
    rw [hgp g]
    cases g <;> rfl
  · funext s
    rw [hseg s]
    cases s <;> exact UInt16.toUInt16_toUInt32 _

theorem trap_restores {v : ℕ} {code : List Instr} (hv : stub v = some code) (x : Context) {error : List UInt32}
    (he : error.length = if v ∈ errorVectors then 1 else 0) (ss0 : UInt16) (esp0 : UInt32) (m : Mem) {limit : ℕ}
    (hroom : limit+80 ≤ (x.entryEsp esp0).toNat) :
    let c := enter code ss0 esp0 error x m
    (∃ oldEsp, Holds c.mem (c.peek 0).toNat ((x.registers v error oldEsp).words++x.outer)) ∧ c.peek 0 = c.esp+4 ∧
    (∀ s, c.seg s = 0x10) ∧ c.eflags &&& 0x200 = 0 ∧
    (∀ a, a < limit ∨ (x.entryEsp esp0).toNat ≤ a → c.mem a = m a) ∧
    ∀ c' eax, Returns c c' eax (18+x.outer.length) →
      iret (exec restoreCode c') = { x with gp := Function.update x.gp .eax eax } := by
  intro c
  obtain ⟨words,hw⟩ : ∃ ws, ws = (x.registers v error
      (UInt32.ofNat ((x.entryEsp esp0).toNat-4*(x.outer.length+5)))).words++x.outer := ⟨_,rfl⟩
  obtain ⟨f,hss,hfl,hseg,hf⟩ := x.entered hv he ss0 esp0 m hroom hw
  have hfile : c.file = f := hf.file
  have hesp : c.esp.toNat+4*(words.length+1) = (x.entryEsp esp0).toNat := hf.esp
  have hlt : (x.entryEsp esp0).toNat < 2^32 := (x.entryEsp esp0).toNat_lt
  have hptr : (x.entryEsp esp0).toNat-4*words.length < UInt32.size := (Nat.sub_le _ _).trans_lt hlt
  have hpeek : c.peek 0 = c.esp+4 := by
    rw [hf.peek (Nat.succ_pos _),List.getD_cons_zero]
    apply UInt32.toNat_inj.mp
    rw [UInt32.toNat_ofNat_of_lt' hptr,UInt32.toNat_add]
    change _ = (c.esp.toNat+4)%2^32
    omega
  have hframe : Holds c.mem (c.esp.toNat+4) words := hf.words.drop 1
  refine ⟨⟨UInt32.ofNat ((x.entryEsp esp0).toNat-4*(x.outer.length+5)),?_⟩,hpeek,?_,?_,hf.heap,?_⟩
  · rw [← hw,hpeek,UInt32.toNat_add]
    change Holds c.mem ((c.esp.toNat+4)%2^32) words
    rw [Nat.mod_eq_of_lt (by omega)]
    exact hframe
  · rw [hfile]
    exact hseg
  · rw [hfile,hfl,gateFlags,UInt32.and_assoc]
    exact UInt32.and_zero
  · intro c' eax hret
    rw [hw] at hf
    exact x.left hf rfl ((x.fromUser_false_ss ss0).imp_right fun h => by rw [← h,← hss]; exact congrArg File.ss hfile)
      (x.fromUser_false_esp esp0) hret

theorem trap_restores_syscall :
    let x : Context := ⟨fun _ => 7,fun _ => 0x23,0x7000,0x23,0x400100,0x1B,0x202⟩
    let c := enter [.pushImm 0,.pushImm 0x80] 0x10 0x8000 [] x fun _ => 0
    iret (exec restoreCode c) = { x with gp := Function.update x.gp .eax (c.peek 12) } :=
  (trap_restores (v := 0x80) rfl ⟨fun _ => 7,fun _ => 0x23,0x7000,0x23,0x400100,0x1B,0x202⟩ rfl 0x10 0x8000 (fun _ => 0)
    (show 0+80 ≤ _ by decide)).2.2.2.2.2 _ _ ⟨rfl,rfl,fun _ _ _ _ => rfl,rfl⟩

end VesperOS.TrapFrames
