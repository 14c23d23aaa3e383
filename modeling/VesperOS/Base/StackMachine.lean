import VesperOS.Base.ByteMemory

/-! # Code on a stack in memory

A 32-bit machine whose stack is a piece of byte-addressed memory, with the instructions that entry
and switching code is made of. The same code on a list of words, beside a memory without the stack,
is followed by the machine as long as the list fits into its area.
-/
namespace VesperOS.StackMachine
open ByteMemory

inductive Reg where
  | eax
  | ecx
  | edx
  | ebx
  | ebp
  | esi
  | edi
  deriving DecidableEq

inductive Seg where
  | ds
  | es
  | fs
  | gs
  deriving DecidableEq

/-- The registers that code changes by name; `zf` is the only result of arithmetic that is tested. -/
structure File where
  gp : Reg → UInt32
  seg : Seg → UInt16
  ss : UInt16
  eflags : UInt32
  zf : Bool

def File.set (r : Reg) (v : UInt32) (f : File) : File := { f with gp := Function.update f.gp r v }
def File.setSeg (s : Seg) (v : UInt16) (f : File) : File := { f with seg := Function.update f.seg s v }

theorem File.set_gp_self (r : Reg) (v : UInt32) (f : File) : (f.set r v).gp r = v := Function.update_self ..

theorem File.set_gp_of_ne {r r' : Reg} (h : r' ≠ r) (v : UInt32) (f : File) : (f.set r v).gp r' = f.gp r' :=
  Function.update_of_ne h ..

structure Cpu extends file : File where
  esp : UInt32
  mem : Mem

/-- A memory operand. -/
inductive Addr where
  | abs (a : UInt32)
  | rel (r : Reg) (off : UInt32)

def Addr.eval (f : File) : Addr → UInt32
  | .abs a => a
  | .rel r off => f.gp r+off

inductive Instr where
  | push (r : Reg)
  | pushImm (v : UInt32)
  | pushSeg (s : Seg)
  | pushEsp
  | pushMem (a : Addr)
  | pushf
  | pusha
  | pop (r : Reg)
  | popSeg (s : Seg)
  | popa
  | addEsp (words : ℕ)
  | orTop (v : UInt32)
  | mov (dst src : Reg)
  | movLow (r : Reg) (v : UInt16)
  | movSeg (s : Seg) (r : Reg)
  | load (r : Reg) (a : Addr)
  | store (a : Addr) (r : Reg)
  | storeEsp (a : Addr)
  | test (r : Reg)

/-- The low half of a register is replaced. -/
def setLow (old : UInt32) (v : UInt16) : UInt32 := (old &&& 0xFFFF0000) ||| v.toUInt32

def word (m : Mem) (a : ℕ) : UInt32 := UInt32.ofNat (read32 m a)
def setWord (m : Mem) (a : ℕ) (v : UInt32) : Mem := write32 m a v.toNat

/-! ## The machine -/

namespace Cpu

def push (v : UInt32) (c : Cpu) : Cpu := { c with esp := c.esp-4, mem := setWord c.mem (c.esp-4).toNat v }
def pushAll (vs : List UInt32) (c : Cpu) : Cpu := vs.foldl (fun c v => c.push v) c

/-- The `k`th word from the top of the stack. -/
def peek (c : Cpu) (k : ℕ) : UInt32 := word c.mem (c.esp+4*UInt32.ofNat k).toNat
def drop (k : ℕ) (c : Cpu) : Cpu := { c with esp := c.esp+4*UInt32.ofNat k }

/-- The order of `pusha`; the fifth word is the stack pointer before it. -/
def saved (f : File) (esp : UInt32) : List UInt32 := [f.gp .eax,f.gp .ecx,f.gp .edx,f.gp .ebx,esp,f.gp .ebp,f.gp .esi,f.gp .edi]

end Cpu

/-- The order of `popa`, which ignores the stored stack pointer. -/
def File.restore (w : ℕ → UInt32) (f : File) : File :=
  { f with gp := fun r => match r with
    | .edi => w 0
    | .esi => w 1
    | .ebp => w 2
    | .ebx => w 4
    | .edx => w 5
    | .ecx => w 6
    | .eax => w 7 }

def step : Instr → Cpu → Cpu
  | .push r, c => c.push (c.gp r)
  | .pushImm v, c => c.push v
  | .pushSeg s, c => c.push (c.seg s).toUInt32
  | .pushEsp, c => c.push c.esp
  | .pushMem a, c => c.push (word c.mem (a.eval c.file).toNat)
  | .pushf, c => c.push c.eflags
  | .pusha, c => c.pushAll (Cpu.saved c.file c.esp)
  | .pop r, c => { c.drop 1 with file := c.file.set r (c.peek 0) }
  | .popSeg s, c => { c.drop 1 with file := c.file.setSeg s (c.peek 0).toUInt16 }
  | .popa, c => { c.drop 8 with file := c.file.restore c.peek }
  | .addEsp n, c => c.drop n
  | .orTop v, c => { c with mem := setWord c.mem c.esp.toNat (c.peek 0 ||| v) }
  | .mov dst src, c => { c with file := c.file.set dst (c.gp src) }
  | .movLow r v, c => { c with file := c.file.set r (setLow (c.gp r) v) }
  | .movSeg s r, c => { c with file := c.file.setSeg s (c.gp r).toUInt16 }
  | .load r a, c => { c with file := c.file.set r (word c.mem (a.eval c.file).toNat) }
  | .store a r, c => { c with mem := setWord c.mem (a.eval c.file).toNat (c.gp r) }
  | .storeEsp a, c => { c with mem := setWord c.mem (a.eval c.file).toNat c.esp }
  | .test r, c => { c with zf := c.gp r = 0 }

def exec (code : List Instr) (c : Cpu) : Cpu := code.foldl (fun c i => step i c) c

/-! ## The stack as a list -/

/-- The stack from the top word down, in the area between `limit` and `top`, and the memory beside it. -/
structure Thread extends file : File where
  limit : ℕ
  top : ℕ
  stack : List UInt32
  heap : Mem

namespace Thread

def esp (t : Thread) : UInt32 := UInt32.ofNat (t.top-4*t.stack.length)
def apart (t : Thread) (a : UInt32) : Prop := a.toNat+4 ≤ t.limit ∨ t.top ≤ a.toNat

instance (t : Thread) (a : UInt32) : Decidable (t.apart a) := inferInstanceAs (Decidable (_ ∨ _))

def pushAll (vs : List UInt32) (t : Thread) : Option Thread :=
  if t.limit+4*(t.stack.length+vs.length) ≤ t.top then some { t with stack := vs.reverse++t.stack } else none

def setTop (v : UInt32) (t : Thread) : Option Thread :=
  match t.stack with
  | [] => none
  | _ :: ws => some { t with stack := v :: ws }

def pop (k : ℕ) (f : (ℕ → UInt32) → File) (t : Thread) : Option Thread :=
  if k ≤ t.stack.length then some { t with file := f (fun i => t.stack.getD i 0), stack := t.stack.drop k } else none

end Thread

def stepThread : Instr → Thread → Option Thread
  | .push r, t => t.pushAll [t.gp r]
  | .pushImm v, t => t.pushAll [v]
  | .pushSeg s, t => t.pushAll [(t.seg s).toUInt32]
  | .pushEsp, t => t.pushAll [t.esp]
  | .pushMem a, t => if t.apart (a.eval t.file) then t.pushAll [word t.heap (a.eval t.file).toNat] else none
  | .pushf, t => t.pushAll [t.eflags]
  | .pusha, t => t.pushAll (Cpu.saved t.file t.esp)
  | .pop r, t => t.pop 1 fun w => t.file.set r (w 0)
  | .popSeg s, t => t.pop 1 fun w => t.file.setSeg s (w 0).toUInt16
  | .popa, t => t.pop 8 fun w => t.file.restore w
  | .addEsp n, t => t.pop n fun _ => t.file
  | .orTop v, t => t.setTop (t.stack.getD 0 0 ||| v)
  | .mov dst src, t => some { t with file := t.file.set dst (t.gp src) }
  | .movLow r v, t => some { t with file := t.file.set r (setLow (t.gp r) v) }
  | .movSeg s r, t => some { t with file := t.file.setSeg s (t.gp r).toUInt16 }
  | .load r a, t =>
    if t.apart (a.eval t.file) then some { t with file := t.file.set r (word t.heap (a.eval t.file).toNat) } else none
  | .store a r, t =>
    if t.apart (a.eval t.file) then some { t with heap := setWord t.heap (a.eval t.file).toNat (t.gp r) } else none
  | .storeEsp a, t =>
    if t.apart (a.eval t.file) then some { t with heap := setWord t.heap (a.eval t.file).toNat t.esp } else none
  | .test r, t => some { t with zf := t.gp r = 0 }

def execThread : List Instr → Thread → Option Thread
  | [], t => some t
  | i :: code, t => (stepThread i t).bind (execThread code)

theorem execThread_append (code code' : List Instr) (t : Thread) :
    execThread (code++code') t = (execThread code t).bind (execThread code') := by
  induction code generalizing t with
  | nil => rfl
  | cons i code ih =>
    rw [List.cons_append,execThread,execThread,Option.bind_assoc]
    congr 1
    funext t₁
    exact ih t₁

theorem Thread.pushAll_room {vs : List UInt32} {t : Thread} (h : t.limit+4*(t.stack.length+vs.length) ≤ t.top) :
    t.pushAll vs = some { t with stack := vs.reverse++t.stack } := if_pos h

theorem Thread.pop_room {k : ℕ} {f : (ℕ → UInt32) → File} {t : Thread} (h : k ≤ t.stack.length) :
    t.pop k f = some { t with file := f (fun i => t.stack.getD i 0), stack := t.stack.drop k } := if_pos h

theorem execThread_pushes {rs : List Reg} {t : Thread} (h : t.limit+4*(t.stack.length+rs.length) ≤ t.top) :
    execThread (rs.map .push) t = some { t with stack := (rs.map t.gp).reverse++t.stack } := by
  induction rs generalizing t with
  | nil => rfl
  | cons r rs ih =>
    rw [List.length_cons] at h
    have hone : stepThread (.push r) t = some { t with stack := t.gp r :: t.stack } :=
      @Thread.pushAll_room [t.gp r] t (by rw [List.length_singleton]; omega)
    have hrest : t.limit+4*((t.gp r :: t.stack).length+rs.length) ≤ t.top := by
      rw [List.length_cons]
      omega
    rw [List.map_cons,execThread,hone,Option.bind_some,ih hrest,List.map_cons,List.reverse_cons,List.append_assoc]
    rfl

theorem execThread_step {i : Instr} {code : List Instr} {t t' : Thread} (h : stepThread i t = some t') :
    execThread (i :: code) t = execThread code t' := by
  rw [execThread,h,Option.bind_some]

theorem execThread_pushWord {i : Instr} {code : List Instr} {t : Thread} (v : UInt32)
    (hi : stepThread i t = t.pushAll [v]) (hroom : t.limit+4*(t.stack.length+1) ≤ t.top) :
    execThread (i :: code) t = execThread code { t with stack := v :: t.stack } :=
  execThread_step (hi.trans (Thread.pushAll_room hroom))

theorem execThread_pushMem {a : Addr} {code : List Instr} {t : Thread} (h : t.apart (a.eval t.file))
    (hroom : t.limit+4*(t.stack.length+1) ≤ t.top) : execThread (.pushMem a :: code) t =
      execThread code { t with stack := word t.heap (a.eval t.file).toNat :: t.stack } :=
  execThread_pushWord _ (by rw [stepThread,if_pos h]) hroom

theorem execThread_orTop {v w : UInt32} {ws : List UInt32} {code : List Instr} {t : Thread} (h : t.stack = w :: ws) :
    execThread (.orTop v :: code) t = execThread code { t with stack := (w ||| v) :: ws } :=
  execThread_step (by rw [stepThread,Thread.setTop,h,List.getD_cons_zero])

theorem execThread_load {r : Reg} {a : Addr} {code : List Instr} {t : Thread} (h : t.apart (a.eval t.file)) :
    execThread (.load r a :: code) t =
      execThread code { t with file := t.file.set r (word t.heap (a.eval t.file).toNat) } := by
  rw [execThread,stepThread,if_pos h,Option.bind_some]

theorem execThread_store {r : Reg} {a : Addr} {code : List Instr} {t : Thread} (h : t.apart (a.eval t.file)) :
    execThread (.store a r :: code) t =
      execThread code { t with heap := setWord t.heap (a.eval t.file).toNat (t.gp r) } := by
  rw [execThread,stepThread,if_pos h,Option.bind_some]

theorem execThread_storeEsp {a : Addr} {code : List Instr} {t : Thread} (h : t.apart (a.eval t.file)) :
    execThread (.storeEsp a :: code) t =
      execThread code { t with heap := setWord t.heap (a.eval t.file).toNat t.esp } := by
  rw [execThread,stepThread,if_pos h,Option.bind_some]

theorem setLow_toUInt16 (old : UInt32) (v : UInt16) : (setLow old v).toUInt16 = v := by
  unfold setLow
  rw [UInt32.toUInt16_or,UInt32.toUInt16_and,UInt16.toUInt16_toUInt32,
    show (0xFFFF0000 : UInt32).toUInt16 = 0 from rfl,UInt16.and_zero,UInt16.zero_or]

/-! ## Words -/

theorem word_congr {m m' : Mem} {a : ℕ} (h : ∀ x, a ≤ x → x < a+4 → m x = m' x) : word m a = word m' a := by
  unfold word
  rw [read32_congr h]

theorem word_setWord (m : Mem) (a : ℕ) (v : UInt32) : word (setWord m a v) a = v := by
  unfold word setWord
  rw [read32_write32_same,Nat.mod_eq_of_lt v.toNat_lt]
  exact UInt32.ofNat_toNat

theorem setWord_of_outside (m : Mem) {a x : ℕ} (v : UInt32) (h : x < a ∨ a+4 ≤ x) : setWord m a v x = m x :=
  write32_of_outside m h

theorem word_setWord_of_disjoint (m : Mem) {a b : ℕ} (v : UInt32) (h : a+4 ≤ b ∨ b+4 ≤ a) :
    word (setWord m a v) b = word m b :=
  word_congr fun x h1 h2 => setWord_of_outside m v (by omega)

/-- The words from an address on. -/
def Holds (m : Mem) (a : ℕ) (ws : List UInt32) : Prop := ∀ k (h : k < ws.length), word m (a+4*k) = ws[k]

theorem Holds.congr {m m' : Mem} {a : ℕ} {ws : List UInt32} (h : Holds m a ws)
    (hm : ∀ x, a ≤ x → x < a+4*ws.length → m x = m' x) : Holds m' a ws := by
  intro k hk
  rw [← h k hk]
  exact (word_congr fun x h1 h2 => hm x (by omega) (by omega)).symm

theorem Holds.unique {m : Mem} {a : ℕ} {ws ws' : List UInt32} (h : Holds m a ws) (h' : Holds m a ws')
    (hlen : ws.length = ws'.length) : ws = ws' := by
  apply List.ext_getElem hlen
  intro k h1 h2
  rw [← h k h1,← h' k h2]

theorem Holds.push {m : Mem} {a : ℕ} {ws : List UInt32} (h : Holds m (a+4) ws) (v : UInt32) :
    Holds (setWord m a v) a (v :: ws) := by
  intro k hk
  cases k with
  | zero => exact word_setWord m a v
  | succ k =>
    rw [show a+4*(k+1) = a+4+4*k by ring,word_setWord_of_disjoint m v (by omega)]
    exact h k (Nat.lt_of_succ_lt_succ hk)

theorem Holds.push_at {m : Mem} {a b : ℕ} {ws : List UInt32} (h : Holds m b ws) (hb : a+4 = b) (v : UInt32) :
    Holds (setWord m a v) a (v :: ws) := by
  subst hb
  exact h.push v

theorem Holds.drop {m : Mem} {a : ℕ} {ws : List UInt32} (h : Holds m a ws) (n : ℕ) : Holds m (a+4*n) (ws.drop n) := by
  intro k hk
  rw [List.length_drop] at hk
  rw [List.getElem_drop,← h (n+k) (by omega)]
  congr 1
  ring

theorem Holds.replace {m : Mem} {a : ℕ} {w : UInt32} {ws : List UInt32} (h : Holds m a (w :: ws)) (v : UInt32) :
    Holds (setWord m a v) a (v :: ws) := Holds.push (h.drop 1) v

/-! ## The machine follows the list -/

structure Follows (c : Cpu) (t : Thread) : Prop where
  file : c.file = t.file
  esp : c.esp.toNat+4*t.stack.length = t.top
  low : t.limit ≤ c.esp.toNat
  top_lt : t.top < 2^32
  words : Holds c.mem c.esp.toNat t.stack
  heap : ∀ x, x < t.limit ∨ t.top ≤ x → c.mem x = t.heap x

namespace Follows
variable {c : Cpu} {t : Thread} (h : Follows c t)
include h

theorem esp_eq : c.esp = t.esp := by
  have hesp := h.esp
  have hlt : t.top-4*t.stack.length < 2^32 := (Nat.sub_le _ _).trans_lt h.top_lt
  apply UInt32.toNat_inj.mp
  unfold Thread.esp
  rw [UInt32.toNat_ofNat_of_lt' hlt]
  omega

theorem setFile {f g : File} (he : g = f) : Follows { c with file := g } { t with file := f } :=
  ⟨he,h.esp,h.low,h.top_lt,h.words,h.heap⟩

theorem push (v : UInt32) (hroom : t.limit+4*(t.stack.length+1) ≤ t.top) :
    Follows (c.push v) { t with stack := v :: t.stack } := by
  have hesp := h.esp
  have htop := h.top_lt
  have h4 : (4 : UInt32) ≤ c.esp := by
    rw [UInt32.le_iff_toNat_le]
    change 4 ≤ c.esp.toNat
    omega
  have hsub : (c.esp-4).toNat = c.esp.toNat-4 := UInt32.toNat_sub_of_le c.esp 4 h4
  have h4' : 4 ≤ c.esp.toNat := UInt32.le_iff_toNat_le.mp h4
  constructor
  · exact h.file
  · change (c.esp-4).toNat+4*(t.stack.length+1) = t.top
    omega
  · change t.limit ≤ (c.esp-4).toNat
    omega
  · exact htop
  · change Holds (setWord c.mem (c.esp-4).toNat v) (c.esp-4).toNat (v :: t.stack)
    apply Holds.push
    rw [hsub,Nat.sub_add_cancel h4']
    exact h.words
  · intro x (hx : x < t.limit ∨ t.top ≤ x)
    change setWord c.mem (c.esp-4).toNat v x = t.heap x
    rw [setWord_of_outside c.mem v (by omega)]
    exact h.heap x hx

theorem peek {k : ℕ} (hk : k < t.stack.length) : c.peek k = t.stack.getD k 0 := by
  have hesp := h.esp
  have htop := h.top_lt
  have haddr : (c.esp+4*UInt32.ofNat k).toNat = c.esp.toNat+4*k := by
    simp only [UInt32.toNat_add,UInt32.toNat_mul,UInt32.toNat_ofNat,UInt32.toNat_ofNat']
    omega
  unfold Cpu.peek
  rw [haddr,h.words k hk,List.getD_eq_getElem?_getD,List.getElem?_eq_getElem hk,Option.getD_some]

theorem drop {k : ℕ} (hk : k ≤ t.stack.length) (f : File) :
    Follows { c.drop k with file := f } { t with file := f, stack := t.stack.drop k } := by
  have hesp := h.esp
  have htop := h.top_lt
  have haddr : (c.esp+4*UInt32.ofNat k).toNat = c.esp.toNat+4*k := by
    simp only [UInt32.toNat_add,UInt32.toNat_mul,UInt32.toNat_ofNat,UInt32.toNat_ofNat']
    omega
  constructor
  · rfl
  · change (c.esp+4*UInt32.ofNat k).toNat+4*(t.stack.drop k).length = t.top
    rw [haddr,List.length_drop]
    omega
  · change t.limit ≤ (c.esp+4*UInt32.ofNat k).toNat
    have hlow := h.low
    omega
  · exact htop
  · change Holds c.mem (c.esp+4*UInt32.ofNat k).toNat (t.stack.drop k)
    rw [haddr]
    exact h.words.drop k
  · exact h.heap

theorem word_apart {a : UInt32} (ha : t.apart a) : word c.mem a.toNat = word t.heap a.toNat := by
  apply word_congr
  intro x h1 h2
  apply h.heap
  unfold Thread.apart at ha
  omega

theorem store {a b : UInt32} (ha : t.apart a) (hb : b = a) {v w : UInt32} (hw : w = v) :
    Follows { c with mem := setWord c.mem b.toNat w } { t with heap := setWord t.heap a.toNat v } := by
  subst hb hw
  have hesp := h.esp
  have hlow := h.low
  unfold Thread.apart at ha
  refine ⟨h.file,h.esp,h.low,h.top_lt,?_,?_⟩
  · exact h.words.congr fun x h1 h2 => (setWord_of_outside c.mem w (by omega)).symm
  · intro x hx
    by_cases hin : x < b.toNat ∨ b.toNat+4 ≤ x
    · change setWord c.mem b.toNat w x = setWord t.heap b.toNat w x
      rw [setWord_of_outside c.mem w hin,setWord_of_outside t.heap w hin]
      exact h.heap x hx
    · change write32 c.mem b.toNat w.toNat x = write32 t.heap b.toNat w.toNat x
      rw [write32_apply,write32_apply,h.heap x hx]

end Follows

theorem Follows.pushAll {c : Cpu} {t : Thread} (h : Follows c t) (vs : List UInt32)
    (hroom : t.limit+4*(t.stack.length+vs.length) ≤ t.top) :
    Follows (c.pushAll vs) { t with stack := vs.reverse++t.stack } := by
  induction vs generalizing c t with
  | nil => exact h
  | cons v vs ih =>
    rw [List.length_cons] at hroom
    have hone := h.push v (by omega)
    have hrest := ih hone (by
      dsimp only
      rw [List.length_cons]
      omega)
    rw [List.reverse_cons,List.append_assoc,List.singleton_append]
    exact hrest

theorem Thread.pushAll_some {vs : List UInt32} {t t' : Thread} (h : t.pushAll vs = some t') :
    t.limit+4*(t.stack.length+vs.length) ≤ t.top ∧ t' = { t with stack := vs.reverse++t.stack } := by
  unfold Thread.pushAll at h
  split at h
  · rename_i hroom
    exact ⟨hroom,(Option.some.inj h).symm⟩
  · cases h

theorem Thread.pop_some {k : ℕ} {f : (ℕ → UInt32) → File} {t t' : Thread} (h : t.pop k f = some t') :
    k ≤ t.stack.length ∧ t' = { t with file := f (fun i => t.stack.getD i 0), stack := t.stack.drop k } := by
  unfold Thread.pop at h
  split at h
  · rename_i hk
    exact ⟨hk,(Option.some.inj h).symm⟩
  · cases h

theorem File.restore_congr {w w' : ℕ → UInt32} (f : File) (h : ∀ k < 8, w k = w' k) : f.restore w = f.restore w' := by
  unfold File.restore
  congr 1
  funext r
  cases r <;> exact h _ (by decide)

namespace Follows
variable {c : Cpu} {t t' : Thread} (h : Follows c t)
include h

theorem pushed {vs : List UInt32} (hs : t.pushAll vs = some t') (ws : List UInt32) (he : ws = vs) :
    Follows (c.pushAll ws) t' := by
  obtain ⟨hroom,rfl⟩ := Thread.pushAll_some hs
  rw [he]
  exact h.pushAll vs hroom

theorem popped (k : ℕ) (f : (ℕ → UInt32) → File) (hs : t.pop k f = some t') {g : File}
    (hg : (∀ i < k, c.peek i = t.stack.getD i 0) → g = f (fun i => t.stack.getD i 0)) :
    Follows { c.drop k with file := g } t' := by
  obtain ⟨hk,rfl⟩ := Thread.pop_some hs
  rw [hg fun i hi => h.peek (hi.trans_le hk)]
  exact h.drop hk _

theorem step {i : Instr} (hs : stepThread i t = some t') : Follows (step i c) t' := by
  have hfile := h.file
  cases i with
  | push r => exact h.pushed hs [c.gp r] (by rw [hfile])
  | pushImm v => exact h.pushed hs [v] rfl
  | pushSeg s => exact h.pushed hs [(c.seg s).toUInt32] (by rw [hfile])
  | pushEsp => exact h.pushed hs [c.esp] (by rw [h.esp_eq])
  | pushMem a =>
    simp only [stepThread] at hs
    split at hs
    · rename_i ha
      exact h.pushed hs [word c.mem (a.eval c.file).toNat] (by rw [hfile,h.word_apart ha])
    · cases hs
  | pushf => exact h.pushed hs [c.eflags] (by rw [hfile])
  | pusha => exact h.pushed hs (Cpu.saved c.file c.esp) (by rw [hfile,h.esp_eq])
  | pop r => exact h.popped 1 (fun w => t.file.set r (w 0)) hs fun hw => by rw [hfile,hw 0 (by decide)]
  | popSeg s =>
    exact h.popped 1 (fun w => t.file.setSeg s (w 0).toUInt16) hs fun hw => by rw [hfile,hw 0 (by decide)]
  | popa => exact h.popped 8 (fun w => t.file.restore w) hs fun hw => by rw [hfile,File.restore_congr _ hw]
  | addEsp n => exact h.popped n (fun _ => t.file) hs fun _ => hfile
  | orTop v =>
    simp only [stepThread,Thread.setTop] at hs
    cases hst : t.stack with
    | nil =>
      rw [hst] at hs
      cases hs
    | cons w ws =>
      have hpeek := h.peek (k := 0) (by rw [hst]; exact Nat.succ_pos _)
      have hlow := h.low
      have hesp := h.esp
      have hwords := h.words
      rw [hst] at hs hesp hwords hpeek
      rw [List.length_cons] at hesp
      obtain rfl := Option.some.inj hs
      refine ⟨h.file,hesp,hlow,h.top_lt,?_,?_⟩
      · change Holds (setWord c.mem c.esp.toNat (c.peek 0 ||| v)) c.esp.toNat (((w :: ws).getD 0 0 ||| v) :: ws)
        rw [hpeek]
        exact hwords.replace _
      · intro x (hx : x < t.limit ∨ t.top ≤ x)
        change setWord c.mem c.esp.toNat (c.peek 0 ||| v) x = t.heap x
        rw [setWord_of_outside c.mem _ (by omega)]
        exact h.heap x hx
  | mov dst src =>
    obtain rfl := Option.some.inj hs
    exact h.setFile (by rw [hfile])
  | movLow r v =>
    obtain rfl := Option.some.inj hs
    exact h.setFile (by rw [hfile])
  | movSeg s r =>
    obtain rfl := Option.some.inj hs
    exact h.setFile (by rw [hfile])
  | load r a =>
    simp only [stepThread] at hs
    split at hs
    · rename_i ha
      obtain rfl := Option.some.inj hs
      exact h.setFile (by rw [hfile,h.word_apart ha])
    · cases hs
  | store a r =>
    simp only [stepThread] at hs
    split at hs
    · rename_i ha
      obtain rfl := Option.some.inj hs
      exact h.store ha (by rw [hfile]) (by rw [hfile])
    · cases hs
  | storeEsp a =>
    simp only [stepThread] at hs
    split at hs
    · rename_i ha
      obtain rfl := Option.some.inj hs
      exact h.store ha (by rw [hfile]) h.esp_eq
    · cases hs
  | test r =>
    obtain rfl := Option.some.inj hs
    exact h.setFile (by rw [hfile])

end Follows

/-- Code that runs on the list runs in the same way in memory. -/
theorem Follows.exec {code : List Instr} {c : Cpu} {t t' : Thread} (h : Follows c t)
    (hs : execThread code t = some t') : Follows (StackMachine.exec code c) t' := by
  induction code generalizing c t with
  | nil =>
    obtain rfl := Option.some.inj hs
    exact h
  | cons i code ih =>
    obtain ⟨t₁,h₁,h₂⟩ := Option.bind_eq_some_iff.mp hs
    exact ih (h.step h₁) h₂

/-- The words above the stack pointer, as a stack of their own. -/
theorem follows_above (c : Cpu) {n : ℕ} (h : c.esp.toNat+4*n < 2^32) : Follows c
    ⟨c.file,c.esp.toNat,c.esp.toNat+4*n,(List.range n).map fun k => word c.mem (c.esp.toNat+4*k),c.mem⟩ := by
  refine ⟨rfl,?_,le_rfl,h,?_,fun _ _ => rfl⟩
  · rw [List.length_map,List.length_range]
  · intro k hk
    rw [List.getElem_map,List.getElem_range]

end VesperOS.StackMachine
