import Mathlib.Tactic

/-! # Computations with a log

A computation that may run out of its fuel, with the events up to that point. What it
has done by then counts whether or not it came to an end.
-/
namespace VesperOS.TracedReads
variable {ε α β : Type}

structure Traced (ε α : Type) where
  result : Option α
  log : List ε

/-- Out of fuel. -/
def stopped : Traced ε α := ⟨none,[]⟩

/-- One event that gives a value. -/
def event (e : ε) (a : α) : Traced ε α := ⟨some a,[e]⟩

def Traced.bind (x : Traced ε α) (f : α → Traced ε β) : Traced ε β :=
  match x.result with
  | none => ⟨none,x.log⟩
  | some a => ⟨(f a).result,x.log++(f a).log⟩

instance : Monad (Traced ε) where
  pure a := ⟨some a,[]⟩
  bind := Traced.bind

section Binds
variable {x : Traced ε α} {f : α → Traced ε β} {a : α} {e : ε}

theorem bind_none (h : x.result = none) : x >>= f = ⟨none,x.log⟩ := by
  change x.bind f = _
  simp [Traced.bind,h]

theorem bind_some (h : x.result = some a) : x >>= f = ⟨(f a).result,x.log++(f a).log⟩ := by
  change x.bind f = _
  simp [Traced.bind,h]

theorem result_bind (h : x.result = some a) : (x >>= f).result = (f a).result := by
  rw [bind_some h]

theorem result_event_bind : (event e a >>= f).result = (f a).result := rfl

theorem log_event_bind : (event e a >>= f).log = e :: (f a).log := rfl

theorem mem_log_left (h : e ∈ x.log) : e ∈ (x >>= f).log := by
  cases hx : x.result with
  | none =>
    rw [bind_none hx]
    exact h
  | some a =>
    rw [bind_some hx]
    exact List.mem_append_left _ h

theorem mem_log_right (hx : x.result = some a) (h : e ∈ (f a).log) : e ∈ (x >>= f).log := by
  rw [bind_some hx]
  exact List.mem_append_right _ h

end Binds

/-! ## A property of every event -/

def Only (P : ε → Prop) (x : Traced ε α) : Prop := ∀ e ∈ x.log, P e

variable {P : ε → Prop}

theorem Only.stopped : Only P (stopped : Traced ε α) := fun _ he => absurd he List.not_mem_nil

theorem Only.pure (a : α) : Only P (pure a : Traced ε α) := fun _ he => absurd he List.not_mem_nil

theorem Only.event {e : ε} (he : P e) (a : α) : Only P (event e a) := by
  intro e' he'
  rw [List.mem_singleton.mp he']
  exact he

theorem Only.bind {x : Traced ε α} {f : α → Traced ε β} (hx : Only P x) (hf : ∀ a, x.result = some a → Only P (f a)) :
    Only P (x >>= f) := by
  intro e he
  cases hr : x.result with
  | none =>
    rw [bind_none hr] at he
    exact hx e he
  | some a =>
    rw [bind_some hr] at he
    rcases List.mem_append.mp he with he | he
    · exact hx e he
    · exact hf a hr e he

theorem Only.event_bind {e : ε} {a : α} {f : α → Traced ε β} (he : P e) (hf : Only P (f a)) :
    Only P (TracedReads.event e a >>= f) := by
  refine (Only.event he a).bind ?_
  intro b hb
  obtain rfl : a = b := Option.some.inj hb
  exact hf

end VesperOS.TracedReads
