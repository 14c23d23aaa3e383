import VesperOS.Base.ByteMemory

/-! # Programs over translated memory

A program loads and stores single bytes at virtual addresses. Memory holds the tables
that translate them, so a translation depends on the memory it is made in. An access
that has no translation stops the program. The trace lists the addresses accessed, the
last one included where the program stops.
-/
namespace VesperOS.AccessProgram
open ByteMemory
variable {α β : Type}

inductive Prog (α : Type) : Type where
  | ret (a : α)
  | load (v : ℕ) (next : UInt8 → Prog α)
  | store (v : ℕ) (b : UInt8) (next : Prog α)

def Prog.bind (f : α → Prog β) : Prog α → Prog β
  | .ret a => f a
  | .load v next => .load v (fun b => (next b).bind f)
  | .store v b next => .store v b (next.bind f)

instance : Monad Prog where
  pure := .ret
  bind p f := p.bind f

abbrev Translate := Mem → ℕ → Option ℕ

structure Outcome (α : Type) where
  result : Option α
  mem : Mem
  trace : List ℕ

/-- One access before the rest of a run. -/
def Outcome.after (v : ℕ) (o : Outcome α) : Outcome α := { o with trace := v :: o.trace }

def run (tr : Translate) : Prog α → Mem → Outcome α
  | .ret a, m => ⟨some a,m,[]⟩
  | .load v next, m => ((tr m v).map fun x => (run tr (next (m x)) m).after v).getD ⟨none,m,[v]⟩
  | .store v b next, m => ((tr m v).map fun x => (run tr next (Function.update m x b)).after v).getD ⟨none,m,[v]⟩

/-- The bytes at `base`, `base+1`, and so on, in 32-bit arithmetic. -/
def span (base n : ℕ) : List ℕ := (List.range n).map (fun j => (base+j) % 2^32)

theorem mem_span {base n v : ℕ} : v ∈ span base n ↔ ∃ j < n, v = (base+j) % 2^32 := by
  unfold span
  rw [List.mem_map]
  simp only [List.mem_range,eq_comm]

theorem span_succ (base j n : ℕ) : span (base+j) (n+1) = (base+j) % 2^32 :: span (base+(j+1)) n := by
  unfold span
  rw [List.range_succ_eq_map,List.map_cons,List.map_map]
  congr 1
  apply List.map_congr_left
  intro k _
  change (base+j+(k+1)) % 2^32 = _
  congr 1
  omega

section Accesses
variable {tr : Translate} {m : Mem} {v x : ℕ}

theorem run_load_none {next : UInt8 → Prog α} (h : tr m v = none) : run tr (.load v next) m = ⟨none,m,[v]⟩ := by
  simp [run,h]

theorem run_load_some {next : UInt8 → Prog α} (h : tr m v = some x) :
    run tr (.load v next) m = (run tr (next (m x)) m).after v := by
  simp [run,h]

theorem run_store_none {b : UInt8} {next : Prog α} (h : tr m v = none) :
    run tr (.store v b next) m = ⟨none,m,[v]⟩ := by
  simp [run,h]

theorem run_store_some {b : UInt8} {next : Prog α} (h : tr m v = some x) :
    run tr (.store v b next) m = (run tr next (Function.update m x b)).after v := by
  simp [run,h]

end Accesses

/-! ## Traces -/

/-- The run accesses the addresses of a list in order, all of them unless it stops at one. -/
structure Follows (tr : Translate) (p : Prog α) (m : Mem) (vs : List ℕ) : Prop where
  part : (run tr p m).trace <+: vs
  all : (run tr p m).result.isSome → (run tr p m).trace = vs

section Rules
variable {tr : Translate} {m : Mem} {v : ℕ} {vs ws : List ℕ}

theorem Follows.ret (a : α) : Follows tr (.ret a) m [] := ⟨List.prefix_rfl,fun _ => rfl⟩

theorem Follows.load {next : UInt8 → Prog α} (h : ∀ x, tr m v = some x → Follows tr (next (m x)) m vs) :
    Follows tr (.load v next) m (v :: vs) := by
  cases hx : tr m v with
  | none =>
    refine ⟨?_,?_⟩
    · rw [run_load_none hx]
      exact ⟨vs,rfl⟩
    · rw [run_load_none hx]
      intro he
      cases he
  | some x =>
    obtain ⟨hpart,hall⟩ := h x hx
    refine ⟨?_,?_⟩
    · rw [run_load_some hx]
      exact (List.prefix_cons_inj v).mpr hpart
    · rw [run_load_some hx]
      intro he
      exact congrArg (v :: ·) (hall he)

theorem Follows.store {b : UInt8} {next : Prog α}
    (h : ∀ x, tr m v = some x → Follows tr next (Function.update m x b) vs) :
    Follows tr (.store v b next) m (v :: vs) := by
  cases hx : tr m v with
  | none =>
    refine ⟨?_,?_⟩
    · rw [run_store_none hx]
      exact ⟨vs,rfl⟩
    · rw [run_store_none hx]
      intro he
      cases he
  | some x =>
    obtain ⟨hpart,hall⟩ := h x hx
    refine ⟨?_,?_⟩
    · rw [run_store_some hx]
      exact (List.prefix_cons_inj v).mpr hpart
    · rw [run_store_some hx]
      intro he
      exact congrArg (v :: ·) (hall he)

/-- A program that stops has no continuation; otherwise the traces are joined. -/
theorem run_bind (p : Prog α) (f : α → Prog β) :
    ((run tr p m).result = none ∧
        run tr (p >>= f) m = ⟨none,(run tr p m).mem,(run tr p m).trace⟩) ∨
      ∃ a, (run tr p m).result = some a ∧ run tr (p >>= f) m =
        ⟨(run tr (f a) (run tr p m).mem).result,(run tr (f a) (run tr p m).mem).mem,
          (run tr p m).trace++(run tr (f a) (run tr p m).mem).trace⟩ := by
  change ((run tr p m).result = none ∧ run tr (p.bind f) m = _) ∨
    ∃ a, (run tr p m).result = some a ∧ run tr (p.bind f) m = _
  induction p generalizing m with
  | ret a => exact Or.inr ⟨a,rfl,rfl⟩
  | load v next ih =>
    cases hx : tr m v with
    | none =>
      left
      simp [run,Prog.bind,hx]
    | some x =>
      simp only [run,Prog.bind,hx,Option.map_some,Option.getD_some]
      rcases ih (m x) (m := m) with ⟨hr,he⟩ | ⟨a,hr,he⟩
      · exact Or.inl ⟨hr,by rw [he]; rfl⟩
      · exact Or.inr ⟨a,hr,by rw [he]; rfl⟩
  | store v b next ih =>
    cases hx : tr m v with
    | none =>
      left
      simp [run,Prog.bind,hx]
    | some x =>
      simp only [run,Prog.bind,hx,Option.map_some,Option.getD_some]
      rcases ih (m := Function.update m x b) with ⟨hr,he⟩ | ⟨a,hr,he⟩
      · exact Or.inl ⟨hr,by rw [he]; rfl⟩
      · exact Or.inr ⟨a,hr,by rw [he]; rfl⟩

theorem Follows.bind {p : Prog α} {f : α → Prog β} (h : Follows tr p m vs)
    (hf : ∀ a, (run tr p m).result = some a → Follows tr (f a) (run tr p m).mem ws) :
    Follows tr (p >>= f) m (vs++ws) := by
  rcases @run_bind _ _ tr m p f with ⟨_,he⟩ | ⟨a,hr,he⟩
  · refine ⟨?_,?_⟩
    · rw [he]
      exact h.part.trans (List.prefix_append vs ws)
    · rw [he]
      intro hs
      cases hs
  · have hvs : (run tr p m).trace = vs := h.all (by rw [hr]; rfl)
    obtain ⟨hpart,hall⟩ := hf a hr
    refine ⟨?_,?_⟩
    · rw [he,hvs]
      exact (List.prefix_append_right_inj vs).mpr hpart
    · rw [he,hvs]
      intro hs
      exact congrArg (vs ++ ·) (hall hs)

/-- The result may be packed up without further accesses. -/
theorem Follows.map {p : Prog α} (f : α → β) (h : Follows tr p m vs) :
    Follows tr (p >>= fun a => pure (f a)) m vs := by
  have hb := @Follows.bind _ _ _ _ _ [] _ (fun a => pure (f a)) h (fun a _ => Follows.ret (f a))
  rw [List.append_nil] at hb
  exact hb

end Rules

/-- No store occurs, whatever the loads return. -/
def LoadsOnly : Prog α → Prop
  | .ret _ => True
  | .load _ next => ∀ b, LoadsOnly (next b)
  | .store _ _ _ => False

theorem LoadsOnly.bind {p : Prog α} {f : α → Prog β} (h : LoadsOnly p) (hf : ∀ a, LoadsOnly (f a)) :
    LoadsOnly (p >>= f) := by
  change LoadsOnly (p.bind f)
  induction p with
  | ret a => exact hf a
  | load v next ih => exact fun b => ih b (h b)
  | store v b next ih => cases h

theorem LoadsOnly.mem {tr : Translate} {m : Mem} {p : Prog α} (h : LoadsOnly p) : (run tr p m).mem = m := by
  induction p with
  | ret a => rfl
  | load v next ih =>
    cases hx : tr m v with
    | none => rw [run_load_none hx]
    | some x =>
      rw [run_load_some hx]
      exact ih (m x) (h (m x))
  | store v b next ih => cases h

/-! ## Addresses that stay mapped -/

/-- The addresses of a set are mapped in every memory of a class, which stores through them do not leave. -/
def Stable (tr : Translate) (good : ℕ → Prop) (I : Mem → Prop) : Prop :=
  ∀ m v, I m → good v → ∃ x, tr m v = some x ∧ ∀ b, I (Function.update m x b)

theorem run_stable {tr : Translate} {good : ℕ → Prop} {I : Mem → Prop} (h : Stable tr good I) {p : Prog α} {m : Mem}
    (hm : I m) (hgood : ∀ v ∈ (run tr p m).trace, good v) : (run tr p m).result.isSome ∧ I (run tr p m).mem := by
  induction p generalizing m with
  | ret a => exact ⟨rfl,hm⟩
  | load v next ih =>
    have hv : good v := by
      apply hgood
      cases hx : tr m v with
      | none =>
        rw [run_load_none hx]
        exact List.mem_cons_self
      | some x =>
        rw [run_load_some hx]
        exact List.mem_cons_self
    obtain ⟨x,hx,_⟩ := h m v hm hv
    rw [run_load_some hx] at hgood ⊢
    exact ih (m x) hm fun w hw => hgood w (List.mem_cons_of_mem v hw)
  | store v b next ih =>
    have hv : good v := by
      apply hgood
      cases hx : tr m v with
      | none =>
        rw [run_store_none hx]
        exact List.mem_cons_self
      | some x =>
        rw [run_store_some hx]
        exact List.mem_cons_self
    obtain ⟨x,hx,hI⟩ := h m v hm hv
    rw [run_store_some hx] at hgood ⊢
    exact ih (hI b) fun w hw => hgood w (List.mem_cons_of_mem v hw)

/-- The run keeps to the set exactly when the whole list of its addresses does. -/
theorem Follows.good_iff {tr : Translate} {good : ℕ → Prop} {I : Mem → Prop} (hs : Stable tr good I) {p : Prog α}
    {m : Mem} {vs : List ℕ} (hm : I m) (h : Follows tr p m vs) :
    (∀ v ∈ (run tr p m).trace, good v) ↔ ∀ v ∈ vs, good v := by
  constructor
  · intro hgood
    rw [← h.all (run_stable hs hm hgood).1]
    exact hgood
  · intro hgood v hv
    exact hgood v (h.part.subset hv)

end VesperOS.AccessProgram
