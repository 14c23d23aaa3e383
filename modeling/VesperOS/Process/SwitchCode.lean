import VesperOS.Base.StackMachine
import VesperOS.Process.ProcessTable

/-! # The switch in memory

`process_yield` of `process.asm` with the process table as bytes: the saved stack pointers, the states and the
kernel stacks are words at the offsets of `process.h`. The C functions that the code calls are given by what they
do to the table and by the calling convention. The switch itself is not interrupted.
-/
namespace VesperOS.SwitchCode
open ByteMemory StackMachine ProcessTable

/-! ## The table -/

/-- Where the linker puts the variables of `process.c`. The boot stack begins at 0x90000, above the BSS. -/
structure Layout where
  table : ℕ
  current : ℕ
  nextPid : ℕ
  bssEnd : ℕ
  kernelPd : UInt32
  table_pos : 0 < table
  table_end : table+16*8252 ≤ bssEnd
  current_end : current+4 ≤ bssEnd
  current_apart : current+4 ≤ table ∨ table+16*8252 ≤ current
  nextPid_end : nextPid+4 ≤ bssEnd
  nextPid_apart : nextPid+4 ≤ table ∨ table+16*8252 ≤ nextPid
  nextPid_current : nextPid+4 ≤ current ∨ current+4 ≤ nextPid
  bssEnd_le : bssEnd ≤ 0x90000

namespace Layout
variable (L : Layout)

/-- `&process_table[i]`; a `process_t` has 8252 bytes, the last 8192 are the kernel stack. -/
def slot (i : Slot) : ℕ := L.table+8252*i.val

def pointer : Option Slot → UInt32
  | none => 0
  | some i => UInt32.ofNat (L.slot i)

/-- `(uint32_t)(p - process_table)`. -/
def index (p : UInt32) : Slot := ⟨(p.toNat-L.table)/8252 % 16,Nat.mod_lt _ (by decide)⟩

/-- The stack of a context. -/
def limit : Option Slot → ℕ
  | none => L.bssEnd
  | some i => L.slot i+60

def top : Option Slot → ℕ
  | none => 0x90000
  | some i => L.slot i+8252

def esp (m : Mem) (i : Slot) : UInt32 := word m (L.slot i)
def pdPhys (m : Mem) (i : Slot) : UInt32 := word m (L.slot i+4)
def state (m : Mem) (i : Slot) : UInt32 := word m (L.slot i+8)
def pid (m : Mem) (i : Slot) : UInt32 := word m (L.slot i+12)
def setState (m : Mem) (i : Slot) (v : UInt32) : Mem := setWord m (L.slot i+8) v

end Layout

/-- The values of `proc_state_t`. -/
def code : ProcState → UInt32
  | .unused => 0
  | .ready => 1
  | .running => 2
  | .blocked => 3
  | .zombie => 4

def schedNext (L : Layout) (m : Mem) : Slot × Mem :=
  let current := word m L.current
  if current = 0 then
    match (List.finRange 16).find? fun i => L.state m i = code .ready ∨ L.state m i = code .running with
    | some i => (i,L.setState m i (code .running))
    | none => (idleSlot,L.setState m idleSlot (code .running))
  else
    let state := current.toNat+8
    let m := if word m state = code .running then setWord m state (code .ready) else m
    match (after (L.index current)).find? fun i => L.state m i = code .ready with
    | some i => (i,L.setState m i (code .running))
    | none => (idleSlot,L.setState m idleSlot (code .running))

/-! ## The code -/

/-- The processor with the address where the running code goes on, CR3 and `tss.esp0`. -/
structure Core extends cpu : Cpu where
  eip : UInt32
  cr3 : UInt32
  esp0 : UInt32

/-- A C function that leaves `m` in memory. It may use the stack below its caller's, down to `limit`. -/
structure Called (limit : ℕ) (m : Mem) (c c' : Cpu) : Prop where
  esp : c'.esp = c.esp
  ss : c'.ss = c.ss
  saved : ∀ r ∈ [Reg.ebx,.esi,.edi,.ebp], c'.gp r = c.gp r
  mem : ∀ a, a < limit ∨ c.esp.toNat ≤ a → c'.mem a = m a

/-- Up to the call of `sched_next`. -/
def saveContext (L : Layout) (c : Cpu) : Cpu :=
  let c := exec [.push .ebp,.push .edi,.push .esi,.push .ebx,.load .eax (.abs (UInt32.ofNat L.current)),.test .eax] c
  if c.zf then c else exec [.storeEsp (.rel .eax 0)] c

/-- Up to the call of `process_before_switch`. -/
def passNext (L : Layout) (c : Cpu) : Cpu :=
  exec [.mov .esi .eax,.store (.abs (UInt32.ofNat L.current)) .esi,.push .esi] c

/-- Up to RET. -/
def restoreContext (c : Cpu) : Cpu :=
  let c := exec [.addEsp 1] c
  exec [.pop .ebx,.pop .esi,.pop .edi,.pop .ebp] { c with esp := word c.mem (c.gp .esi).toNat }

/-- `process_before_switch`: the new `tss.esp0` and CR3. -/
def processBeforeSwitch (L : Layout) (m : Mem) (next : UInt32) (cr3 : UInt32) : UInt32 × UInt32 :=
  let pd := word m (next.toNat+4)
  let target := if pd ≠ 0 then pd else L.kernelPd
  (next+60+8192,if target ≠ cr3 then target else cr3)

/-- `process_yield`, called where the code of `s` goes on. -/
inductive Yield (L : Layout) (limit : ℕ) (s : Core) : Core → Prop
  | mk {c₁ c₂ : Cpu} {next : Slot} {m : Mem} : schedNext L (saveContext L (s.cpu.push s.eip)).mem = (next,m) →
      Called limit m (saveContext L (s.cpu.push s.eip)) c₁ → c₁.gp .eax = L.pointer (some next) →
      Called limit (passNext L c₁).mem (passNext L c₁) c₂ →
      Yield L limit s ⟨(restoreContext c₂).drop 1,(restoreContext c₂).peek 0,
        (processBeforeSwitch L (passNext L c₁).mem (c₁.gp .eax) s.cr3).2,
        (processBeforeSwitch L (passNext L c₁).mem (c₁.gp .eax) s.cr3).1⟩

/-! ## Addresses -/

namespace Layout
variable (L : Layout)

theorem slot_end (i : Slot) : L.slot i+8252 ≤ L.bssEnd := by
  have hend := L.table_end
  have hi := i.isLt
  unfold slot
  omega

theorem slot_lt (i : Slot) : L.slot i+8252 ≤ 0x90000 := (L.slot_end i).trans L.bssEnd_le

theorem slot_apart {i j : Slot} (h : i ≠ j) : L.slot i+8252 ≤ L.slot j ∨ L.slot j+8252 ≤ L.slot i := by
  have hne : i.val ≠ j.val := fun he => h (Fin.ext he)
  unfold slot
  omega

/-- A field beside the state and the page directory is in neither of another slot. -/
theorem field_apart (i j : Slot) {off : ℕ} (h : off+4 ≤ 4 ∨ 12 ≤ off) (hend : off+4 ≤ 8252) :
    L.slot i+off+4 ≤ L.slot j+4 ∨ L.slot j+12 ≤ L.slot i+off := by
  by_cases hij : i = j
  · subst hij
    omega
  · have hapart := L.slot_apart hij
    omega

theorem current_slot (i : Slot) : L.current+4 ≤ L.slot i ∨ L.slot i+8252 ≤ L.current := by
  have hapart := L.current_apart
  have hi := i.isLt
  unfold slot
  omega

theorem nextPid_slot (i : Slot) : L.nextPid+4 ≤ L.slot i ∨ L.slot i+8252 ≤ L.nextPid := by
  have hapart := L.nextPid_apart
  have hi := i.isLt
  unfold slot
  omega

theorem slot_pos (i : Slot) : 0 < L.slot i := Nat.add_pos_left L.table_pos _

theorem pointer_toNat (i : Slot) : (L.pointer (some i)).toNat = L.slot i := by
  have hlt := L.slot_lt i
  exact UInt32.toNat_ofNat_of_lt' (show L.slot i < 2^32 by omega)

theorem pointer_ne_zero (i : Slot) : L.pointer (some i) ≠ 0 := by
  intro h
  have hslot := L.pointer_toNat i
  rw [h] at hslot
  exact (L.slot_pos i).ne hslot

theorem pointer_injective {o o' : Option Slot} (h : L.pointer o = L.pointer o') : o = o' := by
  cases o with
  | none =>
    cases o' with
    | none => rfl
    | some j => exact absurd h.symm (L.pointer_ne_zero j)
  | some i =>
    cases o' with
    | none => exact absurd h (L.pointer_ne_zero i)
    | some j =>
      have hij := congrArg UInt32.toNat h
      rw [L.pointer_toNat,L.pointer_toNat] at hij
      congr 1
      by_contra hne
      have hapart := L.slot_apart hne
      omega

theorem index_pointer (i : Slot) : L.index (L.pointer (some i)) = i := by
  have hi := i.isLt
  apply Fin.ext
  change ((L.pointer (some i)).toNat-L.table)/8252 % 16 = i.val
  rw [L.pointer_toNat,slot,Nat.add_sub_cancel_left,Nat.mul_div_cancel_left _ (by decide : 0 < 8252)]
  exact Nat.mod_eq_of_lt hi

theorem current_toNat : (UInt32.ofNat L.current).toNat = L.current := by
  have hend := L.current_end
  have hbss := L.bssEnd_le
  exact UInt32.toNat_ofNat_of_lt' (show L.current < 2^32 by omega)

theorem limit_le_top (o : Option Slot) : L.limit o ≤ L.top o := by
  cases o with
  | none => exact L.bssEnd_le
  | some i => exact Nat.add_le_add_left (by decide) _

theorem top_le (o : Option Slot) : L.top o ≤ 0x90000 := by
  cases o with
  | none => exact le_rfl
  | some i => exact L.slot_lt i

theorem current_apart_stack (o : Option Slot) : L.current+4 ≤ L.limit o ∨ L.top o ≤ L.current := by
  cases o with
  | none => exact Or.inl L.current_end
  | some i => exact (L.current_slot i).imp_left (Nat.le_add_right_of_le ·)

theorem nextPid_apart_stack (o : Option Slot) : L.nextPid+4 ≤ L.limit o ∨ L.top o ≤ L.nextPid := by
  cases o with
  | none => exact Or.inl L.nextPid_end
  | some i => exact (L.nextPid_slot i).imp_left (Nat.le_add_right_of_le ·)

/-- Five words fit at the end of a kernel stack. -/
theorem initial_frame (i : Slot) : L.limit (some i) ≤ L.slot i+8232 ∧ L.slot i+8232+20 ≤ L.top (some i) := by
  change L.slot i+60 ≤ L.slot i+8232 ∧ L.slot i+8232+20 ≤ L.slot i+8252
  omega

/-- The fields before the kernel stack are in no stack. -/
theorem fields_apart_stack (o : Option Slot) (i : Slot) : L.slot i+60 ≤ L.limit o ∨ L.top o ≤ L.slot i := by
  cases o with
  | none =>
    have hend := L.slot_end i
    left
    change L.slot i+60 ≤ L.bssEnd
    omega
  | some j =>
    change L.slot i+60 ≤ L.slot j+60 ∨ L.slot j+8252 ≤ L.slot i
    by_cases hij : i = j
    · subst hij
      exact Or.inl le_rfl
    · have hapart := L.slot_apart hij
      omega

theorem stacks_apart {o o' : Option Slot} (h : o ≠ o') : L.top o ≤ L.limit o' ∨ L.top o' ≤ L.limit o := by
  cases o with
  | none =>
    cases o' with
    | none => exact absurd rfl h
    | some j => exact Or.inr (L.slot_end j)
  | some i =>
    cases o' with
    | none => exact Or.inl (L.slot_end i)
    | some j =>
      have hne : i ≠ j := fun he => h (congrArg some he)
      have hapart := L.slot_apart hne
      change L.slot i+8252 ≤ L.slot j+60 ∨ L.slot j+8252 ≤ L.slot i+60
      omega

end Layout

/-! ## `sched_next` -/

theorem state_setState (L : Layout) (m : Mem) (i j : Slot) (v : UInt32) :
    L.state (L.setState m i v) j = if j = i then v else L.state m j := by
  unfold Layout.state Layout.setState
  split
  · rename_i h
    rw [h,word_setWord]
  · rename_i h
    have hapart := L.slot_apart h
    exact word_setWord_of_disjoint m v (by omega)

/-- Only states differ, and the used slots are the same. -/
structure Restated (L : Layout) (m m' : Mem) : Prop where
  used : ∀ i, L.state m' i = 0 ↔ L.state m i = 0
  apart : ∀ a, (∀ i, a < L.slot i+8 ∨ L.slot i+12 ≤ a) → m' a = m a

theorem Restated.refl (L : Layout) (m : Mem) : Restated L m m := ⟨fun _ => Iff.rfl,fun _ _ => rfl⟩

theorem Restated.trans {L : Layout} {m m' m'' : Mem} (h : Restated L m m') (h' : Restated L m' m'') : Restated L m m'' :=
  ⟨fun i => (h'.used i).trans (h.used i),fun a ha => (h'.apart a ha).trans (h.apart a ha)⟩

theorem restated_setState {L : Layout} {m : Mem} {i : Slot} {v : UInt32} (hi : L.state m i ≠ 0) (hv : v ≠ 0) :
    Restated L m (L.setState m i v) := by
  constructor
  · intro j
    rw [state_setState]
    split
    · rename_i h
      rw [h]
      exact iff_of_false hv hi
    · rfl
  · intro a ha
    have hai := ha i
    exact setWord_of_outside m v (by omega)

theorem Restated.word {L : Layout} {m m' : Mem} (h : Restated L m m') {a : ℕ}
    (ha : ∀ i, a+4 ≤ L.slot i+8 ∨ L.slot i+12 ≤ a) : word m' a = word m a := by
  apply word_congr
  intro x h1 h2
  apply h.apart
  intro i
  have hai := ha i
  omega

/-- A used slot is returned, if the idle process and the current one are. -/
theorem schedNext_spec {L : Layout} {m : Mem} {o : Option Slot} (hcur : word m L.current = L.pointer o)
    (hidle : L.state m 0 ≠ 0) (hused : ∀ c, o = some c → L.state m c ≠ 0) :
    L.state m (schedNext L m).1 ≠ 0 ∧ Restated L m (schedNext L m).2 := by
  have hrun : code .running ≠ 0 := by decide
  cases o with
  | none =>
    have hzero : word m L.current = 0 := hcur
    unfold schedNext
    dsimp only
    rw [if_pos hzero]
    split
    · rename_i i hi
      have hstate : L.state m i ≠ 0 := by
        have htest := List.find?_some hi
        rcases of_decide_eq_true htest with h | h <;> rw [h] <;> decide
      exact ⟨hstate,restated_setState hstate hrun⟩
    · exact ⟨hidle,restated_setState hidle hrun⟩
  | some c =>
    have hne : word m L.current ≠ 0 := by
      rw [hcur]
      exact L.pointer_ne_zero c
    unfold schedNext
    dsimp only
    rw [if_neg hne,hcur,L.pointer_toNat,L.index_pointer]
    -- the state of the caller goes back to READY
    have hback : Restated L m (if word m (L.slot c+8) = code .running then setWord m (L.slot c+8) (code .ready) else m) := by
      split
      · exact restated_setState (hused c rfl) (by decide)
      · exact Restated.refl L m
    generalize (if word m (L.slot c+8) = code .running then setWord m (L.slot c+8) (code .ready) else m) = m₁ at hback ⊢
    split
    · rename_i i hi
      have hstate : L.state m₁ i ≠ 0 := by
        have htest := List.find?_some hi
        rw [of_decide_eq_true htest]
        decide
      exact ⟨fun h => hstate ((hback.used i).mpr h),hback.trans (restated_setState hstate hrun)⟩
    · exact ⟨hidle,hback.trans (restated_setState (fun h => hidle ((hback.used 0).mp h)) hrun)⟩

/-- Only `current_process` and the states are read. -/
theorem schedNext_congr {L : Layout} {m m' : Mem} {o : Option Slot} (hcur : word m L.current = L.pointer o)
    (hcur' : word m' L.current = L.pointer o) (hs : ∀ i, L.state m' i = L.state m i) :
    (schedNext L m').1 = (schedNext L m).1 ∧ ∀ i, L.state (schedNext L m').2 i = L.state (schedNext L m).2 i := by
  have hset {m m' : Mem} (h : ∀ i, L.state m' i = L.state m i) (i : Slot) (v : UInt32) (j : Slot) :
      L.state (L.setState m' i v) j = L.state (L.setState m i v) j := by
    rw [state_setState,state_setState,h]
  cases o with
  | none =>
    have hfind : (fun i => decide (L.state m' i = code .ready ∨ L.state m' i = code .running)) =
        fun i => decide (L.state m i = code .ready ∨ L.state m i = code .running) := by
      funext i
      rw [hs]
    unfold schedNext
    rw [hcur,hcur',if_pos (by rfl),if_pos (by rfl),hfind]
    split <;> exact ⟨rfl,hset hs _ _⟩
  | some c =>
    unfold schedNext
    rw [hcur,hcur',if_neg (L.pointer_ne_zero c),if_neg (L.pointer_ne_zero c),L.index_pointer,L.pointer_toNat]
    dsimp only
    have hback (i : Slot) :
        L.state (if word m' (L.slot c+8) = code .running then setWord m' (L.slot c+8) (code .ready) else m') i =
        L.state (if word m (L.slot c+8) = code .running then setWord m (L.slot c+8) (code .ready) else m) i := by
      have hc : word m' (L.slot c+8) = word m (L.slot c+8) := hs c
      rw [hc]
      split
      · exact hset hs c (code .ready) i
      · exact hs i
    generalize (if word m' (L.slot c+8) = code .running then setWord m' (L.slot c+8) (code .ready) else m') = m₁' at hback ⊢
    generalize (if word m (L.slot c+8) = code .running then setWord m (L.slot c+8) (code .ready) else m) = m₁ at hback ⊢
    have hfind : (fun i => decide (L.state m₁' i = code .ready)) = fun i => decide (L.state m₁ i = code .ready) := by
      funext i
      rw [hback]
    rw [hfind]
    split <;> exact ⟨rfl,hset hback _ _⟩

/-! ## The switch -/

/-- The words that `process_yield` leaves on the stack of its caller, from the top down. -/
def frame (s : Core) : List UInt32 := [s.gp .ebx,s.gp .esi,s.gp .edi,s.gp .ebp,s.eip]

/-- The pointer to the frame goes to the slot of the caller, if there is one. -/
def saveEsp (L : Layout) (o : Option Slot) (esp : UInt32) (m : Mem) : Mem :=
  match o with
  | none => m
  | some c => setWord m (L.slot c) esp

theorem execThread_saveContext {L : Layout} {o : Option Slot} {s : Core} (hcur : word s.mem L.current = L.pointer o)
    (hlow : L.limit o+28 ≤ s.esp.toNat) (hhigh : s.esp.toNat ≤ L.top o) :
    ∃ f : File, f.ss = s.ss ∧ (∀ r ≠ .eax, f.gp r = s.gp r) ∧ f.gp .eax = L.pointer o ∧ f.zf = decide (L.pointer o = 0) ∧
      execThread [.push .ebp,.push .edi,.push .esi,.push .ebx,.load .eax (.abs (UInt32.ofNat L.current)),.test .eax]
        ⟨s.file,L.limit o,s.esp.toNat,[s.eip],s.mem⟩ = some ⟨f,L.limit o,s.esp.toNat,frame s,s.mem⟩ := by
  have hapart := L.current_apart_stack o
  have hload : Thread.apart ⟨s.file,L.limit o,s.esp.toNat,frame s,s.mem⟩ (UInt32.ofNat L.current) := by
    unfold Thread.apart
    rw [L.current_toNat]
    dsimp only
    omega
  refine ⟨{ s.file.set .eax (L.pointer o) with zf := L.pointer o = 0 },rfl,fun r hr => File.set_gp_of_ne hr _ s.file,
    File.set_gp_self .eax _ s.file,rfl,?_⟩
  change execThread ([Reg.ebp,.edi,.esi,.ebx].map .push++[.load .eax (.abs (UInt32.ofNat L.current)),.test .eax]) _ = _
  rw [execThread_append,execThread_pushes (by simp only [List.length_cons,List.length_nil]; omega),Option.bind_some]
  change execThread _ ⟨s.file,L.limit o,s.esp.toNat,frame s,s.mem⟩ = _
  rw [execThread_load hload]
  simp only [Addr.eval,L.current_toNat,hcur]
  rfl

theorem saveContext_follows {L : Layout} {o : Option Slot} {s : Core} (hcur : word s.mem L.current = L.pointer o)
    (hlow : L.limit o+28 ≤ s.esp.toNat) (hhigh : s.esp.toNat ≤ L.top o) :
    ∃ f : File, f.ss = s.ss ∧ (∀ r ≠ .eax, f.gp r = s.gp r) ∧ Follows (saveContext L (s.cpu.push s.eip))
      ⟨f,L.limit o,s.esp.toNat,frame s,saveEsp L o (UInt32.ofNat (s.esp.toNat-20)) s.mem⟩ := by
  have hstart : Follows s.cpu ⟨s.file,L.limit o,s.esp.toNat,[],s.mem⟩ :=
    ⟨rfl,rfl,(Nat.le_add_right _ _).trans hlow,s.esp.toNat_lt,nofun,fun _ _ => rfl⟩
  have hcall := hstart.push s.eip (by rw [List.length_nil]; dsimp only; omega)
  obtain ⟨f,hss,hkeep,heax,hzf,hrun⟩ := execThread_saveContext hcur hlow hhigh
  have hpushed := hcall.exec hrun
  unfold saveContext
  dsimp only
  generalize exec _ (s.cpu.push s.eip) = c₀ at hpushed ⊢
  have hfile : c₀.file = f := hpushed.file
  refine ⟨f,hss,hkeep,?_⟩
  rw [hfile,hzf]
  cases o with
  | none => exact hpushed
  | some c =>
    have hapart := L.fields_apart_stack (some c) c
    have haddr : Addr.eval f (.rel .eax 0) = L.pointer (some c) := by rw [Addr.eval,UInt32.add_zero,heax]
    rw [if_neg fun h => L.pointer_ne_zero c (of_decide_eq_true h)]
    apply hpushed.exec
    rw [execThread_storeEsp (by
      unfold Thread.apart
      rw [haddr,L.pointer_toNat]
      dsimp only
      omega)]
    dsimp only
    rw [haddr,L.pointer_toNat]
    rfl

theorem Called.follows {limit : ℕ} {m : Mem} {c c' : Cpu} {t : Thread} (h : Called limit m c c') (hf : Follows c t)
    (hlimit : t.limit = limit) (hm : ∀ a, c.esp.toNat ≤ a → a < t.top → m a = c.mem a) :
    Follows c' { t with file := c'.file, heap := m } := by
  have hesp := hf.esp
  have hlow := hf.low
  refine ⟨rfl,?_,?_,hf.top_lt,?_,?_⟩
  · rw [h.esp]
    exact hesp
  · rw [h.esp]
    exact hlow
  · rw [h.esp]
    apply hf.words.congr
    intro a ha hlt
    rw [h.mem a (Or.inr ha),hm a ha (by omega)]
  · intro a ha
    apply h.mem
    dsimp only at ha
    omega

theorem passNext_follows {L : Layout} {o : Option Slot} {c : Cpu} {t : Thread} (hf : Follows c t)
    (hlimit : t.limit = L.limit o) (htop : t.top ≤ L.top o) (hroom : t.limit+4*(t.stack.length+1) ≤ t.top) :
    ∃ f : File, f.ss = c.ss ∧ f.gp .esi = c.gp .eax ∧
      Follows (passNext L c) { t with
        file := f, stack := c.gp .eax :: t.stack, heap := setWord t.heap L.current (c.gp .eax) } := by
  have hapart := L.current_apart_stack o
  have hfile : c.file = t.file := hf.file
  have hin : Thread.apart { t with file := t.file.set .esi (t.gp .eax) } (UInt32.ofNat L.current) := by
    unfold Thread.apart
    rw [L.current_toNat]
    dsimp only
    omega
  refine ⟨t.file.set .esi (t.gp .eax),?_,?_,?_⟩
  · rw [hfile]
    rfl
  · rw [File.set_gp_self,hfile]
  · apply hf.exec
    rw [execThread,stepThread,Option.bind_some,execThread_store hin]
    have hpush := @execThread_pushes [.esi] { t with
      file := t.file.set .esi (t.gp .eax), heap := setWord t.heap L.current (t.gp .eax) } (by
        rw [List.length_singleton]
        exact hroom)
    simp only [Addr.eval,L.current_toNat,File.set_gp_self,hfile]
    rw [List.map_singleton] at hpush
    rw [hpush]
    simp only [List.map_singleton,List.reverse_singleton,List.singleton_append,File.set_gp_self]

/-- The four registers and the return address are the words from the loaded stack pointer on. -/
theorem restoreContext_spec {c : Cpu} {next : UInt32} (hesi : c.gp .esi = next)
    (hlt : (word c.mem next.toNat).toNat+20 < 2^32) :
    let c' := restoreContext c
    c'.mem = c.mem ∧ c'.ss = c.ss ∧ (c'.drop 1).esp.toNat = (word c.mem next.toNat).toNat+20 ∧
      Holds c.mem (word c.mem next.toNat).toNat [c'.gp .ebx,c'.gp .esi,c'.gp .edi,c'.gp .ebp,c'.peek 0] := by
  intro c'
  obtain ⟨e,he⟩ : ∃ e, e = word c.mem next.toNat := ⟨_,rfl⟩
  rw [← he] at hlt ⊢
  have hstart := follows_above (n := 5) { c.drop 1 with esp := e } hlt
  have hend := @Follows.exec [.pop .ebx,.pop .esi,.pop .edi,.pop .ebp] _ _ _ hstart rfl
  have hc' : c' = exec [.pop .ebx,.pop .esi,.pop .edi,.pop .ebp] { c.drop 1 with esp := e } := by
    rw [he,← hesi]
    rfl
  rw [← hc'] at hend
  have hfile := hend.file
  have hesp : c'.esp.toNat+4 = e.toNat+20 := hend.esp
  refine ⟨?_,?_,?_,?_⟩
  · rw [hc']
    rfl
  · rw [hc']
    rfl
  · change (c'.esp+4).toNat = _
    rw [UInt32.toNat_add]
    change (c'.esp.toNat+4)%2^32 = _
    rw [hesp,Nat.mod_eq_of_lt hlt]
  · rw [hfile,hend.peek (Nat.succ_pos _)]
    intro k (hk : k < 5)
    interval_cases k <;> rfl

/-- What `process_yield` has done when it returns, to the caller in `o` or to another context. -/
structure Switched (L : Layout) (o : Option Slot) (s s' : Core) (next : Slot) : Prop where
  current : word s'.mem L.current = L.pointer (some next)
  next_eq : next = (schedNext L s.mem).1
  states : ∀ i, L.state s'.mem i = L.state (schedNext L s.mem).2 i
  parked : Holds s'.mem (s.esp.toNat-20) (frame s)
  ownEsp : ∀ c, o = some c → L.esp s'.mem c = UInt32.ofNat (s.esp.toNat-20)
  esps : ∀ i, o ≠ some i → L.esp s'.mem i = L.esp s.mem i
  pds : ∀ i, L.pdPhys s'.mem i = L.pdPhys s.mem i
  kept : ∀ a, (a < L.limit o ∨ s.esp.toNat ≤ a) → (a < L.current ∨ L.current+4 ≤ a) →
    (∀ i, a < L.slot i ∨ L.slot i+12 ≤ a) → s'.mem a = s.mem a
  resumed : (L.esp s'.mem next).toNat+20 < 2^32 →
    Holds s'.mem (L.esp s'.mem next).toNat (frame s') ∧ s'.esp.toNat = (L.esp s'.mem next).toNat+20 ∧ s'.ss = s.ss
  esp0 : s'.esp0 = UInt32.ofNat (L.top (some next))
  cr3 : s'.cr3 = if L.pdPhys s'.mem next ≠ 0 then L.pdPhys s'.mem next else L.kernelPd

theorem Layout.word_field (L : Layout) {o : Option Slot} {m m' : Mem} {e : ℕ} (he : e ≤ L.top o)
    (h : ∀ a, a < L.limit o ∨ e ≤ a → m' a = m a) (i : Slot) {off : ℕ} (hoff : off+4 ≤ 60) :
    word m' (L.slot i+off) = word m (L.slot i+off) := by
  have hapart := L.fields_apart_stack o i
  apply word_congr
  intro x h1 h2
  apply h
  omega

theorem word_saveEsp (L : Layout) (o : Option Slot) (e : UInt32) (m : Mem) (i : Slot) {off : ℕ} (hoff : off+4 ≤ 60)
    (h : 4 ≤ off ∨ o ≠ some i) : word (saveEsp L o e m) (L.slot i+off) = word m (L.slot i+off) := by
  cases o with
  | none => rfl
  | some c =>
    apply word_setWord_of_disjoint
    by_cases hc : c = i
    · subst hc
      have hfour := h.resolve_right (not_not_intro rfl)
      omega
    · have hapart := L.slot_apart hc
      omega

/-- The memory of the calls: only states differ in it from the memory with the new stack pointer of the caller. -/
theorem schedNext_called {L : Layout} {o : Option Slot} {s : Core} {m₀ : Mem} {e : UInt32}
    (hcur : word s.mem L.current = L.pointer o) (hhigh : s.esp.toNat ≤ L.top o)
    (hm : ∀ a, a < L.limit o ∨ s.esp.toNat ≤ a → m₀ a = saveEsp L o e s.mem a)
    (hidle : L.state s.mem 0 ≠ 0) (hused : ∀ c, o = some c → L.state s.mem c ≠ 0) :
    (schedNext L m₀).1 = (schedNext L s.mem).1 ∧ (∀ i, L.state (schedNext L m₀).2 i = L.state (schedNext L s.mem).2 i) ∧
      Restated L m₀ (schedNext L m₀).2 := by
  have hapart := L.current_apart_stack o
  have hstate (i : Slot) : L.state m₀ i = L.state s.mem i :=
    (L.word_field hhigh hm i (by decide)).trans (word_saveEsp L o e s.mem i (by decide) (Or.inl (by decide)))
  have hcur₀ : word m₀ L.current = L.pointer o := by
    rw [← hcur]
    calc word m₀ L.current = word (saveEsp L o e s.mem) L.current := word_congr fun x h1 h2 => hm x (by omega)
      _ = word s.mem L.current := by
        cases o with
        | none => rfl
        | some c =>
          have hc := L.current_slot c
          exact word_setWord_of_disjoint s.mem e (by omega)
  have hcongr := schedNext_congr hcur hcur₀ hstate
  have hspec := schedNext_spec hcur₀ (by rwa [hstate]) fun c hc => by rw [hstate]; exact hused c hc
  exact ⟨hcongr.1,hcongr.2,hspec.2⟩

theorem Yield.calls {L : Layout} {o : Option Slot} {s s' : Core} (h : Yield L (L.limit o) s s')
    (hcur : word s.mem L.current = L.pointer o) (hlow : L.limit o+28 ≤ s.esp.toNat) (hhigh : s.esp.toNat ≤ L.top o)
    (hidle : L.state s.mem 0 ≠ 0) (hused : ∀ c, o = some c → L.state s.mem c ≠ 0) :
    ∃ (next : Slot) (m₀ m : Mem) (c : Cpu), next = (schedNext L s.mem).1 ∧
      (∀ i, L.state m i = L.state (schedNext L s.mem).2 i) ∧ Restated L m₀ m ∧
      (∀ a, a < L.limit o ∨ s.esp.toNat ≤ a → m₀ a = saveEsp L o (UInt32.ofNat (s.esp.toNat-20)) s.mem a) ∧
      (∀ a, a < L.limit o ∨ s.esp.toNat ≤ a → c.mem a = setWord m L.current (L.pointer (some next)) a) ∧
      Holds c.mem (s.esp.toNat-20) (frame s) ∧ c.ss = s.ss ∧ c.gp .esi = L.pointer (some next) ∧
      s'.cpu = (restoreContext c).drop 1 ∧ s'.eip = (restoreContext c).peek 0 ∧ s'.esp0 = UInt32.ofNat (L.top (some next)) ∧
      s'.cr3 = if L.pdPhys c.mem next ≠ 0 then L.pdPhys c.mem next else L.kernelPd := by
  obtain @⟨c₁,c₂,next,m,hnext,h₁,heax,h₂⟩ := h
  obtain ⟨f,hss,hkeep,hf⟩ := saveContext_follows hcur hlow hhigh
  generalize saveContext L (s.cpu.push s.eip) = c₀ at *
  have hsched := schedNext_called hcur hhigh hf.heap hidle hused
  rw [hnext] at hsched
  have hesp : c₀.esp.toNat+20 = s.esp.toNat := hf.esp
  have hf₁ := h₁.follows hf rfl fun a h1 h2 => hsched.2.2.apart a fun i => by
    have hapart := L.fields_apart_stack o i
    dsimp only at h2
    omega
  obtain ⟨f₂,hss₂,hesi,hf₂⟩ := passNext_follows hf₁ rfl hhigh (by
    change L.limit o+4*(5+1) ≤ s.esp.toNat
    omega)
  have hf₃ := h₂.follows hf₂ rfl fun _ _ _ => rfl
  have hesp₃ : c₂.esp.toNat+24 = s.esp.toNat := hf₃.esp
  have hfile : (passNext L c₁).file = f₂ := hf₂.file
  refine ⟨next,c₀.mem,m,c₂,hsched.1,hsched.2.1,hsched.2.2,hf.heap,fun a ha => ?_,?_,?_,?_,rfl,rfl,?_,?_⟩
  · calc c₂.mem a = (passNext L c₁).mem a := hf₃.heap a ha
      _ = setWord m L.current (c₁.gp .eax) a := hf₂.heap a ha
      _ = setWord m L.current (L.pointer (some next)) a := by rw [heax]
  · have hframe := hf₃.words.drop 1
    dsimp only at hframe
    rw [show s.esp.toNat-20 = c₂.esp.toNat+4*1 by omega]
    exact hframe
  · rw [h₂.ss,hfile,hss₂,h₁.ss,hf.file,hss]
  · rw [h₂.saved .esi (by decide),hfile,hesi,heax]
  · rw [processBeforeSwitch,heax]
    apply UInt32.toNat_inj.mp
    have hlt := L.slot_lt next
    have hnat : (UInt32.ofNat (L.top (some next))).toNat = L.slot next+8252 :=
      UInt32.toNat_ofNat_of_lt' (show L.slot next+8252 < 2^32 by omega)
    rw [hnat,UInt32.toNat_add,UInt32.toNat_add,L.pointer_toNat]
    change ((L.slot next+60)%2^32+8192)%2^32 = _
    omega
  · have hpd : word (passNext L c₁).mem (L.slot next+4) = L.pdPhys c₂.mem next :=
      (L.word_field hhigh hf₃.heap next (by decide)).symm
    rw [processBeforeSwitch,heax,L.pointer_toNat,hpd]
    dsimp only
    generalize (if L.pdPhys c₂.mem next ≠ 0 then L.pdPhys c₂.mem next else L.kernelPd) = target
    split
    · rfl
    · rename_i hsame
      exact (not_not.mp hsame).symm

theorem Yield.spec {L : Layout} {o : Option Slot} {s s' : Core} (h : Yield L (L.limit o) s s')
    (hcur : word s.mem L.current = L.pointer o) (hlow : L.limit o+28 ≤ s.esp.toNat) (hhigh : s.esp.toNat ≤ L.top o)
    (hidle : L.state s.mem 0 ≠ 0) (hused : ∀ c, o = some c → L.state s.mem c ≠ 0) : ∃ next, Switched L o s s' next := by
  obtain ⟨next,m₀,m,c,hnext,hstates,hrest,hm₀,hc,hframe,hss,hesi,hcpu,heip,hesp0,hcr3⟩ := h.calls hcur hlow hhigh hidle hused
  have hcurApart := L.current_apart_stack o
  have hmem : s'.mem = c.mem := by
    rw [hcpu]
    rfl
  have hafter (i : Slot) {off : ℕ} (hoff : off+4 ≤ 60) : word c.mem (L.slot i+off) = word m (L.slot i+off) := by
    have hi := L.current_slot i
    rw [L.word_field hhigh hc i hoff,word_setWord_of_disjoint m _ (by omega)]
  -- a field other than the state, before and after the calls
  have hfield (i : Slot) {off : ℕ} (hoff : off+4 ≤ 60) (hstate : off+4 ≤ 8 ∨ 12 ≤ off) :
      word c.mem (L.slot i+off) = word (saveEsp L o (UInt32.ofNat (s.esp.toNat-20)) s.mem) (L.slot i+off) := by
    rw [hafter i hoff,hrest.word fun j => by
      by_cases hj : i = j
      · subst hj
        omega
      · have hapart := L.slot_apart hj
        omega]
    exact L.word_field hhigh hm₀ i hoff
  refine ⟨next,?_,hnext,?_,?_,?_,?_,?_,?_,?_,hesp0,?_⟩
  · rw [hmem,word_congr fun x h1 h2 => hc x (by omega),word_setWord]
  · intro i
    rw [hmem]
    exact (hafter i (by decide)).trans (hstates i)
  · rw [hmem]
    exact hframe
  · rintro i rfl
    rw [hmem]
    exact (hfield i (show 0+4 ≤ 60 by decide) (by decide)).trans (word_setWord ..)
  · intro i hi
    rw [hmem]
    exact (hfield i (show 0+4 ≤ 60 by decide) (by decide)).trans (word_saveEsp L o _ s.mem i (by decide) (Or.inr hi))
  · intro i
    rw [hmem]
    exact (hfield i (by decide) (by decide)).trans (word_saveEsp L o _ s.mem i (by decide) (Or.inl (by decide)))
  · intro a hstack hcurrent hfields
    rw [hmem,hc a hstack,setWord_of_outside m _ hcurrent,hrest.apart a fun i => by
      have hi := hfields i
      omega,hm₀ a hstack]
    cases o with
    | none => rfl
    | some i =>
      have hi := hfields i
      exact setWord_of_outside s.mem _ (by omega)
  · intro hlt
    rw [hmem] at hlt ⊢
    have hspec := restoreContext_spec hesi (by rw [L.pointer_toNat]; exact hlt)
    rw [L.pointer_toNat] at hspec
    obtain ⟨-,hss',hesp,hwords⟩ := hspec
    refine ⟨?_,?_,?_⟩
    · rw [frame,heip,hcpu]
      exact hwords
    · rw [hcpu]
      exact hesp
    · rw [hcpu]
      exact hss'.trans hss
  · rw [hmem]
    exact hcr3

/-- What a context has saved: a stack pointer, the five words there and the bytes above them. -/
structure Saved (L : Layout) (i : Slot) (e : ℕ) (ws : List UInt32) (above m : Mem) : Prop where
  esp : L.esp m i = UInt32.ofNat e
  low : L.limit (some i) ≤ e
  high : e+20 ≤ L.top (some i)
  frame : Holds m e ws
  above : ∀ a, e+20 ≤ a → a < L.top (some i) → m a = above a

theorem Layout.esp_toNat {L : Layout} {i : Slot} {e : ℕ} (h : e+20 ≤ L.top (some i)) : (UInt32.ofNat e).toNat = e := by
  have htop := L.top_le (some i)
  exact UInt32.toNat_ofNat_of_lt' (show e < 2^32 by omega)

theorem Saved.congr {L : Layout} {i : Slot} {e : ℕ} {ws : List UInt32} {above m m' : Mem} (h : Saved L i e ws above m)
    (hws : ws.length = 5) (hesp : L.esp m' i = L.esp m i) (hm : ∀ a, e ≤ a → a < L.top (some i) → m' a = m a) :
    Saved L i e ws above m' := by
  have hhigh := h.high
  refine ⟨hesp.trans h.esp,h.low,h.high,?_,?_⟩
  · exact h.frame.congr fun x h1 h2 => (hm x h1 (by omega)).symm
  · intro a h1 h2
    rw [hm a (by omega) h2]
    exact h.above a h1 h2

theorem Switched.saved {L : Layout} {o : Option Slot} {s s' : Core} {next : Slot} (h : Switched L o s s' next)
    (hhigh : s.esp.toNat ≤ L.top o) {i : Slot} (hi : o ≠ some i) :
    L.esp s'.mem i = L.esp s.mem i ∧ ∀ a, L.limit (some i) ≤ a → a < L.top (some i) → s'.mem a = s.mem a := by
  have hstacks := L.stacks_apart hi
  have hcur := L.current_apart_stack (some i)
  refine ⟨h.esps i hi,fun a h1 h2 => h.kept a (by omega) (by omega) fun j => ?_⟩
  have hfields := L.fields_apart_stack (some i) j
  omega

theorem Switched.own {L : Layout} {i : Slot} {s s' : Core} {next : Slot} (h : Switched L (some i) s s' next)
    (hlow : L.limit (some i)+28 ≤ s.esp.toNat) (hhigh : s.esp.toNat ≤ L.top (some i)) :
    Saved L i (s.esp.toNat-20) (frame s) s.mem s'.mem := by
  have hcur := L.current_apart_stack (some i)
  refine ⟨h.ownEsp i rfl,by omega,by omega,h.parked,fun a h1 h2 => h.kept a (by omega) (by omega) fun j => ?_⟩
  have hfields := L.fields_apart_stack (some i) j
  omega

/-- The context goes on with the saved words in its registers and nothing changed above its stack pointer. -/
structure Resumed (L : Layout) (i : Slot) (e : ℕ) (ws : List UInt32) (above : Mem) (s : Core) : Prop where
  frame : frame s = ws
  esp : s.esp.toNat = e+20
  above : ∀ a, e+20 ≤ a → a < L.top (some i) → s.mem a = above a
  esp0 : s.esp0 = UInt32.ofNat (L.top (some i))
  cr3 : s.cr3 = if L.pdPhys s.mem i ≠ 0 then L.pdPhys s.mem i else L.kernelPd

theorem Saved.resumed {L : Layout} {o : Option Slot} {i : Slot} {e : ℕ} {ws : List UInt32} {above : Mem} {s s' : Core}
    (h : Saved L i e ws above s'.mem) (hws : ws.length = 5) (hs : Switched L o s s' i) : Resumed L i e ws above s' := by
  have hhigh := h.high
  have htop := L.top_le (some i)
  have hesp : (L.esp s'.mem i).toNat = e := by rw [h.esp,Layout.esp_toNat hhigh]
  obtain ⟨hframe,hsp,_⟩ := hs.resumed (by omega)
  rw [hesp] at hframe hsp
  exact ⟨Holds.unique hframe h.frame hws.symm,hsp,h.above,hs.esp0,hs.cr3⟩

end VesperOS.SwitchCode
