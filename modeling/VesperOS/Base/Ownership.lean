import Mathlib.Tactic

/-! # Exclusive ownership

A set of keys holds objects through a relation. The relation is exclusive when no
object is held twice; it stays so when a key takes a fresh object or gives one
up. The objects held are tracked as a set, to compare it with the set an
allocator believes to be in use.
-/
namespace VesperOS.Ownership
variable {κ φ : Type*} {R R' : κ → φ → Prop}

/-- No object is held under two keys. -/
def Exclusive (R : κ → φ → Prop) : Prop := ∀ ⦃k k' f⦄, R k f → R k' f → k = k'

/-- The objects held under some key. -/
def held (R : κ → φ → Prop) : Set φ := {f | ∃ k, R k f}

theorem Exclusive.mono (h : Exclusive R) (hs : ∀ k f, R' k f → R k f) : Exclusive R' :=
  fun _ _ _ hk hk' => h (hs _ _ hk) (hs _ _ hk')

/-- Taking an object that nobody holds keeps ownership exclusive, also when the
key held another object before. -/
theorem Exclusive.add_fresh (h : Exclusive R) (k₀ : κ) {f₀ : φ} (hfresh : f₀ ∉ held R)
    (hs : ∀ k f, R' k f → R k f ∨ (k = k₀ ∧ f = f₀)) : Exclusive R' := by
  intro k k' f hk hk'
  rcases hs k f hk with hk | ⟨rfl,rfl⟩ <;> rcases hs k' f hk' with hk' | ⟨h1,h2⟩
  · exact h hk hk'
  · exact absurd ⟨k,h2 ▸ hk⟩ hfresh
  · exact absurd ⟨k',hk'⟩ hfresh
  · exact h1.symm

end VesperOS.Ownership
