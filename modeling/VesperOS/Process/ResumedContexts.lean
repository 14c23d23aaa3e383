import VesperOS.Interrupts.TrapFrames
import VesperOS.Process.SwitchCode

/-! # Contexts that come back

Runs of the kernel on the memory of the switch. A context that called `process_yield` is a frame on its own kernel
stack and a pointer to it in its slot; the other contexts run, create processes and switch, and whoever is switched
to it continues what it left. A new process is such a context from the start.
-/
namespace VesperOS.ResumedContexts
open ByteMemory StackMachine ProcessTable SwitchCode TrapFrames

/-! ## Creation -/

def allocSlot (L : Layout) (m : Mem) : Option Slot := (List.finRange 16).find? fun i => L.state m i = code .unused

/-- Five words from the end of the kernel stack down. -/
def buildInitialKstack (L : Layout) (i : Slot) (retAddr : UInt32) (m : Mem) : UInt32 × Mem :=
  let stk := L.slot i+60+8192
  let m := setWord m (stk-4) retAddr
  let m := setWord m (stk-8) 0
  let m := setWord m (stk-12) 0
  let m := setWord m (stk-16) 0
  let m := setWord m (stk-20) 0
  (UInt32.ofNat (stk-20),m)

/-- `strncpy` of 31 bytes and the NUL after them. -/
def nameField (name : Mem) (k : ℕ) : UInt8 := if k < 31 ∧ ∀ j ≤ k, name j ≠ 0 then name k else 0

structure NewProcess where
  isUser : UInt32
  pdPhys : UInt32
  userEip : UInt32
  userEsp : UInt32
  name : Mem
  retAddr : UInt32

/-- `process_create` and `process_create_user` in the slot they found. -/
def createProc (L : Layout) (p : NewProcess) (i : Slot) (m : Mem) : Mem :=
  let pid := word m L.nextPid+1
  let m := setWord m L.nextPid pid
  let m := setWord m (L.slot i+12) pid
  let m := L.setState m i (code .ready)
  let m := setWord m (L.slot i+16) p.isUser
  let m := setWord m (L.slot i+4) p.pdPhys
  let m := setWord m (L.slot i+20) p.userEip
  let m := setWord m (L.slot i+24) p.userEsp
  let m := memcpy m (L.slot i+28) (nameField p.name) 32
  let (esp,m) := buildInitialKstack L i p.retAddr m
  setWord m (L.slot i) esp

/-- The loop body of `process_init`. -/
def clearSlot (L : Layout) (m : Mem) (i : Slot) : Mem :=
  let m := L.setState m i (code .unused)
  let m := setWord m (L.slot i+12) 0
  let m := setWord m (L.slot i+4) 0
  setWord m (L.slot i+16) 0

def processInit (L : Layout) (name : Mem) (idle : UInt32) (m : Mem) : Mem :=
  let m := setWord ((List.finRange 16).foldl (clearSlot L) m) L.nextPid 0
  match allocSlot L m with
  | none => m
  | some i => createProc L ⟨0,0,0,0,name,idle⟩ i m

/-! ## Runs -/

/-- Code of the context in `o` other than the switch and the creation of processes. It stays on its stack and leaves
alone `current_process`, the words that identify used slots, and what the other contexts have saved. -/
structure Runs (L : Layout) (o : Option Slot) (s s' : Core) : Prop where
  current : word s'.mem L.current = word s.mem L.current
  ss : s'.ss = s.ss
  low : L.limit o ≤ s'.esp.toNat
  high : s'.esp.toNat ≤ L.top o
  used : ∀ i, L.state s'.mem i = 0 ↔ L.state s.mem i = 0
  fields : ∀ i, L.state s.mem i ≠ 0 → ∀ a, L.slot i+12 ≤ a → a < L.slot i+28 → s'.mem a = s.mem a
  esps : ∀ i, o ≠ some i → L.state s.mem i ≠ 0 → L.esp s'.mem i = L.esp s.mem i
  saved : ∀ i, o ≠ some i → L.state s.mem i ≠ 0 →
    ∀ a, (L.esp s.mem i).toNat ≤ a → a < L.top (some i) → s'.mem a = s.mem a

inductive Step (L : Layout) : Core → Core → Prop
  | yield {o : Option Slot} {s s' : Core} : word s.mem L.current = L.pointer o → L.limit o+28 ≤ s.esp.toNat →
      s.esp.toNat ≤ L.top o → Yield L (L.limit o) s s' → Step L s s'
  | create {p : NewProcess} {i : Slot} {s : Core} : allocSlot L s.mem = some i →
      Step L s { s with mem := createProc L p i s.mem }
  | run {o : Option Slot} {s s' : Core} : word s.mem L.current = L.pointer o → Runs L o s s' → Step L s s'

/-- After `process_init`, on the boot stack with `current_process` NULL, and the steps from there on. -/
inductive Reachable (L : Layout) : Core → Prop
  | boot {s : Core} {name : Mem} {idle : UInt32} {m : Mem} : s.mem = processInit L name idle m →
      word s.mem L.current = 0 → L.bssEnd ≤ s.esp.toNat → s.esp.toNat ≤ 0x90000 → Reachable L s
  | step {s s' : Core} : Reachable L s → Step L s s' → Reachable L s'

/-- Steps of other contexts than `i`, from a state after which `i` may run again. -/
inductive Without (L : Layout) (i : Slot) (s : Core) : Core → Prop
  | refl : Without L i s s
  | step {s₁ s₂ : Core} : Without L i s s₁ → word s₁.mem L.current ≠ L.pointer (some i) → Step L s₁ s₂ → Without L i s s₂

/-- Saved contexts are frames on their own stacks. -/
structure Inv (L : Layout) (o : Option Slot) (s : Core) : Prop where
  current : word s.mem L.current = L.pointer o
  low : L.limit o ≤ s.esp.toNat
  high : s.esp.toNat ≤ L.top o
  idle : L.state s.mem 0 ≠ 0
  own : ∀ c, o = some c → L.state s.mem c ≠ 0
  saved : ∀ i, o ≠ some i → L.state s.mem i ≠ 0 →
    L.limit (some i) ≤ (L.esp s.mem i).toNat ∧ (L.esp s.mem i).toNat+20 ≤ L.top (some i)

/-! ## New processes -/

theorem allocSlot_unused {L : Layout} {m : Mem} {i : Slot} (h : allocSlot L m = some i) : L.state m i = 0 := by
  have htest := List.find?_some h
  exact of_decide_eq_true htest

theorem createProc_outside_slot (L : Layout) (p : NewProcess) (i : Slot) (m : Mem) {a : ℕ}
    (ha : a < L.slot i ∨ L.slot i+8252 ≤ a) :
    createProc L p i m a = setWord m L.nextPid (word m L.nextPid+1) a := by
  unfold createProc buildInitialKstack Layout.setState
  dsimp only
  rw [setWord_of_outside _ _ (by omega),setWord_of_outside _ _ (by omega),setWord_of_outside _ _ (by omega),
    setWord_of_outside _ _ (by omega),setWord_of_outside _ _ (by omega),setWord_of_outside _ _ (by omega),
    memcpy_of_outside _ _ (by omega),setWord_of_outside _ _ (by omega),setWord_of_outside _ _ (by omega),
    setWord_of_outside _ _ (by omega),setWord_of_outside _ _ (by omega),setWord_of_outside _ _ (by omega),
    setWord_of_outside _ _ (by omega)]

theorem createProc_outside (L : Layout) (p : NewProcess) (i : Slot) (m : Mem) {a : ℕ}
    (ha : a < L.slot i ∨ L.slot i+8252 ≤ a) (hpid : a < L.nextPid ∨ L.nextPid+4 ≤ a) : createProc L p i m a = m a :=
  (createProc_outside_slot L p i m ha).trans (setWord_of_outside _ _ hpid)

theorem createProc_nextPid (L : Layout) (p : NewProcess) (i : Slot) (m : Mem) :
    word (createProc L p i m) L.nextPid = word m L.nextPid+1 := by
  have hslot := L.nextPid_slot i
  rw [← word_setWord m L.nextPid (word m L.nextPid+1)]
  exact word_congr fun x h1 h2 => createProc_outside_slot L p i m (by omega)

theorem createProc_otherSlot (L : Layout) (p : NewProcess) {i j : Slot} (h : i ≠ j) (m : Mem) {a : ℕ} (h1 : L.slot j ≤ a)
    (h2 : a < L.slot j+8252) : createProc L p i m a = m a := by
  have hapart := L.slot_apart h
  have hpid := L.nextPid_slot j
  exact createProc_outside L p i m (by omega) (by omega)

theorem createProc_word (L : Layout) (p : NewProcess) {i j : Slot} (h : i ≠ j) (m : Mem) {off : ℕ} (hoff : off+4 ≤ 8252) :
    word (createProc L p i m) (L.slot j+off) = word m (L.slot j+off) :=
  word_congr fun x h1 h2 => createProc_otherSlot L p h m (by omega) (by omega)

/-- The initial frame lies in the kernel stack, above the fields. -/
theorem buildInitialKstack_spec (L : Layout) (i : Slot) (retAddr : UInt32) (m : Mem) :
    Holds (buildInitialKstack L i retAddr m).2 (L.slot i+8232) [0,0,0,0,retAddr] ∧
      ∀ a, a < L.slot i+60 → (buildInitialKstack L i retAddr m).2 a = m a := by
  unfold buildInitialKstack
  dsimp only
  constructor
  · have hnone : Holds m (L.slot i+60+8192) [] := nofun
    have hstack := ((((hnone.push_at (a := L.slot i+60+8192-4) (by omega) retAddr).push_at (a := L.slot i+60+8192-8)
      (by omega) 0).push_at (a := L.slot i+60+8192-12) (by omega) 0).push_at (a := L.slot i+60+8192-16) (by omega) 0).push_at
      (a := L.slot i+60+8192-20) (by omega) 0
    rwa [show L.slot i+8232 = L.slot i+60+8192-20 by omega]
  · intro a ha
    rw [setWord_of_outside _ _ (by omega),setWord_of_outside _ _ (by omega),setWord_of_outside _ _ (by omega),
      setWord_of_outside _ _ (by omega),setWord_of_outside _ _ (by omega)]

/-- The fields before the name. -/
theorem createProc_fields (L : Layout) (p : NewProcess) (i : Slot) (m : Mem) :
    let m' := createProc L p i m
    L.state m' i = code .ready ∧ L.pdPhys m' i = p.pdPhys ∧ L.pid m' i = word m L.nextPid+1 ∧
      word m' (L.slot i+20) = p.userEip ∧ word m' (L.slot i+24) = p.userEsp := by
  have hafter (m : Mem) {off : ℕ} (h4 : 4 ≤ off) (h28 : off+4 ≤ 28) (e : UInt32) :
      word (setWord (buildInitialKstack L i p.retAddr (memcpy m (L.slot i+28) (nameField p.name) 32)).2 (L.slot i) e)
        (L.slot i+off) = word m (L.slot i+off) := by
    rw [word_setWord_of_disjoint _ _ (by omega)]
    apply word_congr
    intro x h1 h2
    rw [(buildInitialKstack_spec L i p.retAddr _).2 x (by omega),memcpy_of_outside _ _ (by omega)]
  unfold createProc Layout.setState
  dsimp only
  refine ⟨?_,?_,?_,?_,?_⟩
  · refine (hafter _ (by decide) (by decide) _).trans ?_
    rw [word_setWord_of_disjoint _ _ (by omega),word_setWord_of_disjoint _ _ (by omega),
      word_setWord_of_disjoint _ _ (by omega),word_setWord_of_disjoint _ _ (by omega),word_setWord]
  · refine (hafter _ (by decide) (by decide) _).trans ?_
    rw [word_setWord_of_disjoint _ _ (by omega),word_setWord_of_disjoint _ _ (by omega),word_setWord]
  · refine (hafter _ (by decide) (by decide) _).trans ?_
    rw [word_setWord_of_disjoint _ _ (by omega),word_setWord_of_disjoint _ _ (by omega),
      word_setWord_of_disjoint _ _ (by omega),word_setWord_of_disjoint _ _ (by omega),
      word_setWord_of_disjoint _ _ (by omega),word_setWord]
  · rw [hafter _ (by decide) (by decide),word_setWord_of_disjoint _ _ (by omega),word_setWord]
  · rw [hafter _ (by decide) (by decide),word_setWord]

theorem createProc_frame (L : Layout) (p : NewProcess) (i : Slot) (m : Mem) :
    L.esp (createProc L p i m) i = UInt32.ofNat (L.slot i+8232) ∧
      Holds (createProc L p i m) (L.slot i+8232) [0,0,0,0,p.retAddr] := by
  constructor
  · have haddr : L.slot i+60+8192-20 = L.slot i+8232 := by omega
    exact (word_setWord ..).trans (congrArg UInt32.ofNat haddr)
  · exact (buildInitialKstack_spec L i p.retAddr _).1.congr fun x h1 h2 => (setWord_of_outside _ _ (by omega)).symm

/-! ## The invariant -/

theorem clearSlot_word (L : Layout) (m : Mem) (i j : Slot) {off : ℕ} (hoff : off = 4 ∨ off = 8 ∨ off = 12) :
    word (clearSlot L m i) (L.slot j+off) = if j = i then 0 else word m (L.slot j+off) := by
  unfold clearSlot Layout.setState
  dsimp only
  by_cases hj : j = i
  · subst hj
    rw [if_pos rfl,word_setWord_of_disjoint _ _ (by omega)]
    rcases hoff with rfl | rfl | rfl
    · exact word_setWord ..
    · rw [word_setWord_of_disjoint _ _ (by omega),word_setWord_of_disjoint _ _ (by omega)]
      exact word_setWord ..
    · rw [word_setWord_of_disjoint _ _ (by omega)]
      exact word_setWord ..
  · have hapart := L.slot_apart hj
    rw [if_neg hj,word_setWord_of_disjoint _ _ (by omega),word_setWord_of_disjoint _ _ (by omega),
      word_setWord_of_disjoint _ _ (by omega),word_setWord_of_disjoint _ _ (by omega)]

theorem clearSlots_word (L : Layout) (slots : List Slot) (m : Mem) (i : Slot) {off : ℕ} (hoff : off = 4 ∨ off = 8 ∨ off = 12)
    (h : i ∈ slots ∨ word m (L.slot i+off) = 0) : word (slots.foldl (clearSlot L) m) (L.slot i+off) = 0 := by
  induction slots generalizing m with
  | nil => exact h.resolve_left List.not_mem_nil
  | cons j slots ih =>
    rw [List.foldl_cons]
    apply ih
    rw [clearSlot_word L m j i hoff]
    by_cases hij : i = j
    · exact Or.inr (if_pos hij)
    · rw [if_neg hij]
      exact h.imp_left fun hi => (List.mem_cons.mp hi).resolve_left hij

theorem clearSlots_current (L : Layout) (slots : List Slot) (m : Mem) :
    word (slots.foldl (clearSlot L) m) L.current = word m L.current := by
  induction slots generalizing m with
  | nil => rfl
  | cons i slots ih =>
    have hslot := L.current_slot i
    rw [List.foldl_cons,ih,clearSlot,Layout.setState,word_setWord_of_disjoint _ _ (by omega),
      word_setWord_of_disjoint _ _ (by omega),word_setWord_of_disjoint _ _ (by omega),
      word_setWord_of_disjoint _ _ (by omega)]

/-- The memory in which `process_init` creates the idle process. -/
theorem processInit_eq (L : Layout) (name : Mem) (idle : UInt32) (m : Mem) : ∃ m₁,
    (∀ i, L.state m₁ i = 0 ∧ L.pdPhys m₁ i = 0 ∧ L.pid m₁ i = 0) ∧
      word m₁ L.nextPid = 0 ∧ word m₁ L.current = word m L.current ∧ processInit L name idle m = createProc L ⟨0,0,0,0,name,idle⟩ 0 m₁ := by
  obtain ⟨m₁,hm⟩ : ∃ m₁, setWord ((List.finRange 16).foldl (clearSlot L) m) L.nextPid 0 = m₁ := ⟨_,rfl⟩
  have hclear (i : Slot) {off : ℕ} (hoff : off = 4 ∨ off = 8 ∨ off = 12) : word m₁ (L.slot i+off) = 0 := by
    have hpid := L.nextPid_slot i
    rw [← hm,word_setWord_of_disjoint _ _ (by omega)]
    exact clearSlots_word L (List.finRange 16) m i hoff (Or.inl (List.mem_finRange i))
  have halloc : allocSlot L m₁ = some 0 := by
    unfold allocSlot
    rw [List.finRange_succ]
    exact List.find?_cons_of_pos (decide_eq_true (hclear 0 (by decide)))
  refine ⟨m₁,fun i => ⟨hclear i (by decide),hclear i (by decide),hclear i (by decide)⟩,?_,?_,?_⟩
  · rw [← hm,word_setWord]
  · rw [← hm,word_setWord_of_disjoint _ _ L.nextPid_current,clearSlots_current]
  · rw [processInit,hm,halloc]

theorem processInit_state (L : Layout) (name : Mem) (idle : UInt32) (m : Mem) (i : Slot) :
    (L.state (processInit L name idle m) i ≠ 0 ↔ i = 0) ∧
      L.esp (processInit L name idle m) 0 = UInt32.ofNat (L.slot 0+8232) := by
  obtain ⟨m₁,hclear,-,-,hm⟩ := processInit_eq L name idle m
  rw [hm]
  refine ⟨?_,(createProc_frame L _ 0 m₁).1⟩
  by_cases hi : i = 0
  · subst hi
    rw [(createProc_fields L _ 0 m₁).1]
    exact iff_of_true (by decide) rfl
  · have hstate : L.state (createProc L ⟨0,0,0,0,name,idle⟩ 0 m₁) i = L.state m₁ i :=
      createProc_word L _ (Ne.symm hi) m₁ (by decide)
    rw [hstate,(hclear i).1]
    exact iff_of_false (not_not_intro rfl) hi

theorem createProc_current (L : Layout) (p : NewProcess) (i : Slot) (m : Mem) :
    word (createProc L p i m) L.current = word m L.current := by
  have hslot := L.current_slot i
  have hpid := L.nextPid_current
  exact word_congr fun x h1 h2 => createProc_outside L p i m (by omega) (by omega)

theorem processInit_current (L : Layout) (name : Mem) (idle : UInt32) (m : Mem) :
    word (processInit L name idle m) L.current = word m L.current := by
  obtain ⟨m₁,-,-,hcur,hm⟩ := processInit_eq L name idle m
  rw [hm,createProc_current,hcur]

theorem Inv.boot {L : Layout} {s : Core} {name : Mem} {idle : UInt32} {m : Mem} (hm : s.mem = processInit L name idle m)
    (hcur : word s.mem L.current = 0) (hlow : L.bssEnd ≤ s.esp.toNat) (hhigh : s.esp.toNat ≤ 0x90000) : Inv L none s := by
  have hstate (i : Slot) := (processInit_state L name idle m i).1
  refine ⟨hcur,hlow,hhigh,?_,nofun,?_⟩
  · rw [hm]
    exact (hstate 0).mpr rfl
  · intro i _ hi
    rw [hm] at hi ⊢
    obtain rfl := (hstate i).mp hi
    have hlt := L.slot_lt 0
    rw [(processInit_state L name idle m 0).2,UInt32.toNat_ofNat_of_lt' (show L.slot 0+8232 < 2^32 by omega)]
    exact L.initial_frame 0

theorem Inv.unique {L : Layout} {o o' : Option Slot} {s : Core} (h : Inv L o s) (hcur : word s.mem L.current = L.pointer o') :
    o = o' := L.pointer_injective (h.current.symm.trans hcur)

/-! ## Steps -/

/-- What every step keeps, of the contexts other than the running one and of the processes. -/
structure Kept (L : Layout) (o : Option Slot) (s s' : Core) : Prop where
  ss : s'.ss = s.ss
  used : ∀ i, L.state s.mem i ≠ 0 → L.state s'.mem i ≠ 0
  fields : ∀ i, L.state s.mem i ≠ 0 → ∀ a, L.slot i+12 ≤ a → a < L.slot i+28 → s'.mem a = s.mem a
  esps : ∀ i, o ≠ some i → L.state s.mem i ≠ 0 → L.esp s'.mem i = L.esp s.mem i
  saved : ∀ i, o ≠ some i → L.state s.mem i ≠ 0 →
    ∀ a, (L.esp s.mem i).toNat ≤ a → a < L.top (some i) → s'.mem a = s.mem a

theorem Inv.run {L : Layout} {o : Option Slot} {s s' : Core} (h : Inv L o s) (hr : Runs L o s s') :
    Inv L o s' ∧ Kept L o s s' := by
  constructor
  · refine ⟨hr.current.trans h.current,hr.low,hr.high,?_,?_,?_⟩
    · exact fun h0 => h.idle ((hr.used 0).mp h0)
    · exact fun c hc h0 => h.own c hc ((hr.used c).mp h0)
    · intro i hi hused
      have hwas : L.state s.mem i ≠ 0 := fun h0 => hused ((hr.used i).mpr h0)
      rw [hr.esps i hi hwas]
      exact h.saved i hi hwas
  · exact ⟨hr.ss,fun i hi h0 => hi ((hr.used i).mp h0),hr.fields,hr.esps,hr.saved⟩

theorem Inv.create {L : Layout} {o : Option Slot} {s : Core} (h : Inv L o s) {p : NewProcess} {i : Slot}
    (hi : allocSlot L s.mem = some i) :
    Inv L o { s with mem := createProc L p i s.mem } ∧ Kept L o s { s with mem := createProc L p i s.mem } := by
  have hfree := allocSlot_unused hi
  have hne {j : Slot} (hj : L.state s.mem j ≠ 0) : i ≠ j := fun he => hj (he ▸ hfree)
  have hstate {j : Slot} (hj : i ≠ j) : L.state (createProc L p i s.mem) j = L.state s.mem j :=
    createProc_word L p hj s.mem (by decide)
  have hused {j : Slot} (hj : L.state s.mem j ≠ 0) : L.state (createProc L p i s.mem) j ≠ 0 := by
    rwa [hstate (hne hj)]
  have hesp {j : Slot} (hj : i ≠ j) : L.esp (createProc L p i s.mem) j = L.esp s.mem j :=
    @createProc_word L p i j hj s.mem 0 (by decide)
  have hcur := createProc_current L p i s.mem
  have hslot {j : Slot} (hj : L.state s.mem j ≠ 0) {a : ℕ} (h1 : L.slot j ≤ a) (h2 : a < L.slot j+8252) :
      createProc L p i s.mem a = s.mem a := createProc_otherSlot L p (hne hj) s.mem h1 h2
  constructor
  · refine ⟨hcur.trans h.current,h.low,h.high,hused h.idle,fun c hc => hused (h.own c hc),fun j hj hj0 => ?_⟩
    by_cases hij : i = j
    · subst hij
      have hlt := L.slot_lt i
      dsimp only
      rw [(createProc_frame L p i s.mem).1,UInt32.toNat_ofNat_of_lt' (show L.slot i+8232 < 2^32 by omega)]
      exact L.initial_frame i
    · dsimp only at hj0 ⊢
      rw [hstate hij] at hj0
      rw [hesp hij]
      exact h.saved j hj hj0
  · refine ⟨rfl,fun j hj => hused hj,fun j hj a h1 h2 => hslot hj (by omega) (by omega),fun j _ hj => hesp (hne hj),
      fun j hjo hj a h1 h2 => ?_⟩
    have hsaved := (h.saved j hjo hj).1
    have hlow : L.slot j+60 ≤ (L.esp s.mem j).toNat := hsaved
    exact hslot hj (by omega) h2

theorem Inv.switch {L : Layout} {o : Option Slot} {s s' : Core} {next : Slot} (h : Inv L o s)
    (hlow : L.limit o+28 ≤ s.esp.toNat) (hs : Switched L o s s' next) : Inv L (some next) s' ∧ Kept L o s s' := by
  obtain ⟨hnextUsed,hrest⟩ := schedNext_spec h.current h.idle h.own
  rw [← hs.next_eq] at hnextUsed
  have hused (i : Slot) : L.state s'.mem i = 0 ↔ L.state s.mem i = 0 := by
    rw [hs.states]
    exact hrest.used i
  have hsaved {i : Slot} (hi : L.state s.mem i ≠ 0) :
      L.limit (some i) ≤ (L.esp s'.mem i).toNat ∧ (L.esp s'.mem i).toNat+20 ≤ L.top (some i) := by
    by_cases ho : o = some i
    · subst ho
      have hhigh := h.high
      rw [hs.ownEsp i rfl,Layout.esp_toNat (L := L) (i := i) (by omega)]
      omega
    · rw [hs.esps i ho]
      exact h.saved i ho hi
  have hnext := hsaved hnextUsed
  have htop := L.top_le (some next)
  have hresumed := hs.resumed (by omega)
  constructor
  · refine ⟨hs.current,?_,?_,fun h0 => h.idle ((hused 0).mp h0),?_,fun i _ hi =>
      hsaved fun h0 => hi ((hused i).mpr h0)⟩
    · rw [hresumed.2.1]
      omega
    · rw [hresumed.2.1]
      exact hnext.2
    · intro c hc h0
      obtain rfl := Option.some.inj hc
      exact hnextUsed ((hused next).mp h0)
  · refine ⟨hresumed.2.2,fun i hi h0 => hi ((hused i).mp h0),?_,fun i hi _ => hs.esps i hi,fun i hi hiused a h1 h2 =>
      (hs.saved h.high hi).2 a ((h.saved i hi hiused).1.trans h1) h2⟩
    intro i _ a h1 h2
    have hcur := L.current_slot i
    have hstack := L.fields_apart_stack o i
    have hhigh := h.high
    refine hs.kept a (by omega) (by omega) fun j => ?_
    by_cases hij : i = j
    · subst hij
      exact Or.inr h1
    · have hapart := L.slot_apart hij
      omega

theorem Inv.step {L : Layout} {o : Option Slot} {s s' : Core} (h : Inv L o s) (hs : Step L s s') :
    Kept L o s s' ∧ (Inv L o s' ∨ ∃ next, Inv L (some next) s' ∧ Switched L o s s' next) := by
  cases hs with
  | @yield o' _ _ hcur hlow hhigh hy =>
    obtain rfl := h.unique hcur
    obtain ⟨next,hs⟩ := hy.spec hcur hlow hhigh h.idle h.own
    have hinv := h.switch hlow hs
    exact ⟨hinv.2,Or.inr ⟨next,hinv.1,hs⟩⟩
  | create hi => exact ⟨(h.create hi).2,Or.inl (h.create hi).1⟩
  | @run o' _ _ hcur hr =>
    obtain rfl := h.unique hcur
    exact ⟨(h.run hr).2,Or.inl (h.run hr).1⟩

theorem Reachable.inv {L : Layout} {s : Core} (h : Reachable L s) : ∃ o, Inv L o s := by
  induction h with
  | boot hm hcur hlow hhigh => exact ⟨none,Inv.boot hm hcur hlow hhigh⟩
  | step _ hs ih =>
    obtain ⟨o,hinv⟩ := ih
    rcases (hinv.step hs).2 with h | ⟨next,h,_⟩
    · exact ⟨o,h⟩
    · exact ⟨some next,h⟩

/-! ## The way back -/

/-- Saved while another context runs, and back in the registers when `i` does. -/
structure Carried (L : Layout) (i : Slot) (e : ℕ) (ws : List UInt32) (above : Mem) (o : Option Slot) (s : Core) : Prop where
  inv : Inv L o s
  used : L.state s.mem i ≠ 0
  fields : ∀ a, L.slot i+12 ≤ a → a < L.slot i+28 → s.mem a = above a
  saved : o ≠ some i → Saved L i e ws above s.mem
  resumed : o = some i → Resumed L i e ws above s

theorem Carried.step {L : Layout} {i : Slot} {e : ℕ} {ws : List UInt32} {above : Mem} {o : Option Slot} {s s' : Core}
    (h : Carried L i e ws above o s) (hws : ws.length = 5) (hi : o ≠ some i) (hs : Step L s s') :
    ∃ o', Carried L i e ws above o' s' := by
  obtain ⟨hkept,hafter⟩ := h.inv.step hs
  have hsaved := h.saved hi
  have hesp : (L.esp s.mem i).toNat = e := by rw [hsaved.esp,Layout.esp_toNat hsaved.high]
  have hsaved' := hsaved.congr hws (hkept.esps i hi h.used) fun a h1 h2 =>
    hkept.saved i hi h.used a (hesp.le.trans h1) h2
  have hfields (a : ℕ) (h1 : L.slot i+12 ≤ a) (h2 : a < L.slot i+28) : s'.mem a = above a :=
    (hkept.fields i h.used a h1 h2).trans (h.fields a h1 h2)
  rcases hafter with hinv | ⟨next,hinv,hswitch⟩
  · exact ⟨o,hinv,hkept.used i h.used,hfields,fun _ => hsaved',fun h0 => absurd h0 hi⟩
  · refine ⟨some next,hinv,hkept.used i h.used,hfields,fun _ => hsaved',fun h0 => ?_⟩
    obtain rfl := Option.some.inj h0
    exact hsaved'.resumed hws hswitch

theorem Carried.without {L : Layout} {i : Slot} {e : ℕ} {ws : List UInt32} {above : Mem} {o : Option Slot} {s s' : Core}
    (h : Carried L i e ws above o s) (hws : ws.length = 5) (hs : Without L i s s') : ∃ o', Carried L i e ws above o' s' := by
  induction hs with
  | refl => exact ⟨o,h⟩
  | step _ hne hstep ih =>
    obtain ⟨o₁,h₁⟩ := ih
    exact h₁.step hws (fun h0 => hne (by rw [h₁.inv.current,h0])) hstep

theorem Without.reachable {L : Layout} {i : Slot} {s s' : Core} (hr : Reachable L s) (hw : Without L i s s') :
    Reachable L s' ∧ s'.ss = s.ss := by
  induction hw with
  | refl => exact ⟨hr,rfl⟩
  | step _ _ hs ih =>
    obtain ⟨o,hinv⟩ := ih.1.inv
    exact ⟨ih.1.step hs,(hinv.step hs).1.ss.trans ih.2⟩

/-- The caller of `process_yield` when it runs again. -/
theorem resumed_of_yield {L : Layout} {i : Slot} {s₀ s₁ s : Core} (hr : Reachable L s₀)
    (hcur₀ : word s₀.mem L.current = L.pointer (some i)) (hroom : L.limit (some i)+28 ≤ s₀.esp.toNat)
    (hy : Yield L (L.limit (some i)) s₀ s₁) (hw : Without L i s₁ s) (hcur : word s.mem L.current = L.pointer (some i)) :
    Resumed L i (s₀.esp.toNat-20) (frame s₀) s₀.mem s ∧ s.ss = s₀.ss := by
  obtain ⟨o,hinv⟩ := hr.inv
  obtain rfl := hinv.unique hcur₀
  obtain ⟨next,hs⟩ := hy.spec hcur₀ hroom hinv.high hinv.idle hinv.own
  obtain ⟨hinv₁,hkept⟩ := hinv.switch hroom hs
  have hsaved := hs.own hroom hinv.high
  have hcarried : Carried L i (s₀.esp.toNat-20) (frame s₀) s₀.mem (some next) s₁ :=
    ⟨hinv₁,hkept.used i (hinv.own i rfl),hkept.fields i (hinv.own i rfl),fun _ => hsaved,fun h0 => by
      obtain rfl := Option.some.inj h0
      exact hsaved.resumed rfl hs⟩
  obtain ⟨o,hafter⟩ := hcarried.without rfl hw
  have hss := (Without.reachable (hr.step (.yield hcur₀ hroom hinv.high hy)) hw).2
  exact ⟨hafter.resumed (hafter.inv.unique hcur),hss.trans hkept.ss⟩

theorem frame_registers {s s₀ : Core} (h : frame s = frame s₀) :
    s.eip = s₀.eip ∧ ∀ r ∈ [Reg.ebx,.esi,.edi,.ebp], s.gp r = s₀.gp r := by
  rw [frame,frame,List.cons.injEq,List.cons.injEq,List.cons.injEq,List.cons.injEq,List.cons.injEq] at h
  obtain ⟨hebx,hesi,hedi,hebp,heip,-⟩ := h
  refine ⟨heip,fun r hr => ?_⟩
  simp only [List.mem_cons,List.not_mem_nil,or_false] at hr
  rcases hr with rfl | rfl | rfl | rfl
  · exact hebx
  · exact hesi
  · exact hedi
  · exact hebp

/-- `process_yield` is transparent to its caller. -/
theorem yield_resumes {L : Layout} {i : Slot} {s₀ s₁ s : Core} (hr : Reachable L s₀)
    (hcur₀ : word s₀.mem L.current = L.pointer (some i)) (hroom : L.limit (some i)+28 ≤ s₀.esp.toNat)
    (hy : Yield L (L.limit (some i)) s₀ s₁) (hw : Without L i s₁ s) (hcur : word s.mem L.current = L.pointer (some i)) :
    s.eip = s₀.eip ∧ s.esp = s₀.esp ∧ (∀ r ∈ [Reg.ebx,.esi,.edi,.ebp], s.gp r = s₀.gp r) ∧
      (∀ a, s₀.esp.toNat ≤ a → a < L.top (some i) → s.mem a = s₀.mem a) ∧ s.esp0 = UInt32.ofNat (L.top (some i)) ∧
      s.cr3 = if L.pdPhys s.mem i ≠ 0 then L.pdPhys s.mem i else L.kernelPd := by
  obtain ⟨hback,-⟩ := resumed_of_yield hr hcur₀ hroom hy hw hcur
  obtain ⟨heip,hregs⟩ := frame_registers hback.frame
  have hesp := hback.esp
  exact ⟨heip,UInt32.toNat_inj.mp (by omega),hregs,fun a h1 h2 => hback.above a (by omega) h2,hback.esp0,hback.cr3⟩

/-! ## The boot -/

theorem exists_yield (L : Layout) (limit : ℕ) (s : Core) : ∃ s', Yield L limit s s' := by
  obtain ⟨c₀,hc₀⟩ : ∃ c, saveContext L (s.cpu.push s.eip) = c := ⟨_,rfl⟩
  obtain ⟨next,m,hnext⟩ : ∃ next m, schedNext L c₀.mem = (next,m) := ⟨_,_,rfl⟩
  obtain ⟨c₁,hc₁⟩ : ∃ c : Cpu, { c₀ with file := c₀.file.set .eax (L.pointer (some next)), mem := m } = c := ⟨_,rfl⟩
  have hcall : Called limit m c₀ c₁ := by
    rw [← hc₁]
    refine ⟨rfl,rfl,fun r hr => File.set_gp_of_ne ?_ _ _,fun _ _ => rfl⟩
    rintro rfl
    revert hr
    decide
  have heax : c₁.gp .eax = L.pointer (some next) := by
    rw [← hc₁]
    exact File.set_gp_self ..
  subst hc₀
  exact ⟨_,.mk hnext hcall heax ⟨rfl,rfl,fun _ _ => rfl,fun _ _ => rfl⟩⟩

def sampleTable : Layout where
  table := 0x14000
  current := 0x8000
  nextPid := 0x8004
  bssEnd := 0x40000
  kernelPd := 0x10000
  table_pos := by decide
  table_end := by decide
  current_end := by decide
  current_apart := by decide
  nextPid_end := by decide
  nextPid_apart := by decide
  nextPid_current := by decide
  bssEnd_le := by decide

/-- The shell of the boot, after `process_init`. -/
def bootCore : Core :=
  ⟨⟨⟨fun _ => 0,fun _ => 0x10,0x10,0x202,false⟩,0x90000,processInit sampleTable (fun _ => 0) 0x1234 fun _ => 0⟩,0x1100,0x10000,0⟩

theorem bootCore_mem : bootCore.mem = processInit sampleTable (fun _ => 0) 0x1234 fun _ => 0 := by
  rw [bootCore]

theorem bootCore_esp : bootCore.esp.toNat = 0x90000 := by
  rw [bootCore]
  rfl

theorem bootCore_current : word bootCore.mem sampleTable.current = 0 := by
  rw [bootCore_mem,processInit_current]
  rfl

theorem bootCore_reachable : Reachable sampleTable bootCore :=
  .boot bootCore_mem bootCore_current (by rw [bootCore_esp]; decide) bootCore_esp.le

end VesperOS.ResumedContexts
