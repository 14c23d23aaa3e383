import Mathlib.Algebra.BigOperators.Group.List.Basic
import Mathlib.Tactic.Ring

/-! # Objects laid out end to end

A list of objects with lengths occupies consecutive ranges of addresses. `place`
gives each object its offset; replacing a stretch of the list by another one of
the same total length leaves the offsets of all other objects as they were.
-/
namespace VesperOS.Tiling
variable {α : Type*} (len : α → ℕ)

def span (xs : List α) : ℕ := (xs.map len).sum

def place : ℕ → List α → List (ℕ × α)
  | _, [] => []
  | off, x :: xs => (off,x) :: place (off+len x) xs

@[simp] theorem span_nil : span len [] = 0 := rfl

@[simp] theorem span_cons (x : α) (xs : List α) : span len (x :: xs) = len x + span len xs := by
  simp [span]

@[simp] theorem span_append (xs ys : List α) : span len (xs++ys) = span len xs + span len ys := by
  simp [span]

theorem place_append (off : ℕ) (xs ys : List α) :
    place len off (xs++ys) = place len off xs ++ place len (off+span len xs) ys := by
  induction xs generalizing off with
  | nil => simp [place]
  | cons x xs ih =>
    rw [List.cons_append,place,ih,place,span_cons,List.cons_append,Nat.add_assoc]

theorem length_place (off : ℕ) (xs : List α) : (place len off xs).length = xs.length := by
  induction xs generalizing off with
  | nil => rfl
  | cons x xs ih => simp [place,ih]

variable {len}

theorem mem_place_bounds {off o : ℕ} {x : α} {xs : List α} (h : (o,x) ∈ place len off xs) :
    off ≤ o ∧ o + len x ≤ off + span len xs := by
  induction xs generalizing off with
  | nil => cases h
  | cons y ys ih =>
    rw [span_cons]
    rcases List.mem_cons.mp h with he | h
    · cases he
      omega
    · have := ih h
      omega

/-- An object splits the list at its offset. -/
theorem mem_place_split {off o : ℕ} {x : α} {xs : List α} (h : (o,x) ∈ place len off xs) :
    ∃ pre post, xs = pre ++ x :: post ∧ o = off + span len pre := by
  induction xs generalizing off with
  | nil => cases h
  | cons y ys ih =>
    rcases List.mem_cons.mp h with he | h
    · cases he
      exact ⟨[],ys,rfl,by simp⟩
    · obtain ⟨pre,post,rfl,rfl⟩ := ih h
      exact ⟨y :: pre,post,rfl,by rw [span_cons,Nat.add_assoc]⟩

/-- Every address of the range belongs to an object. -/
theorem exists_mem_place {off w : ℕ} {xs : List α} (h : off ≤ w) (h' : w < off + span len xs) :
    ∃ o x, (o,x) ∈ place len off xs ∧ o ≤ w ∧ w < o + len x := by
  induction xs generalizing off with
  | nil =>
    rw [span_nil] at h'
    omega
  | cons y ys ih =>
    by_cases hw : w < off + len y
    · exact ⟨off,y,List.mem_cons_self,h,hw⟩
    · rw [span_cons] at h'
      obtain ⟨o,x,hx,hin⟩ := ih (by omega : off + len y ≤ w) (by omega)
      exact ⟨o,x,List.mem_cons_of_mem _ hx,hin⟩

/-- Two objects are the same one or do not overlap. -/
theorem place_disjoint {off o o' : ℕ} {x x' : α} {xs : List α} (h : (o,x) ∈ place len off xs)
    (h' : (o',x') ∈ place len off xs) :
    (o = o' ∧ x = x') ∨ o + len x ≤ o' ∨ o' + len x' ≤ o := by
  induction xs generalizing off with
  | nil => cases h
  | cons y ys ih =>
    rcases List.mem_cons.mp h with he | h <;> rcases List.mem_cons.mp h' with he' | h'
    · cases he
      cases he'
      exact Or.inl ⟨rfl,rfl⟩
    · cases he
      exact Or.inr (Or.inl (mem_place_bounds h').1)
    · cases he'
      exact Or.inr (Or.inr (mem_place_bounds h).1)
    · exact ih h h'

/-- The objects of a list with one stretch replaced. -/
theorem mem_place_replace {off : ℕ} {pre mid post : List α} {e : ℕ × α} :
    e ∈ place len off (pre++mid++post) ↔ e ∈ place len off pre ∨ e ∈ place len (off+span len pre) mid ∨
      e ∈ place len (off+span len pre+span len mid) post := by
  rw [place_append,place_append,span_append,List.mem_append,List.mem_append,or_assoc,Nat.add_assoc]

end VesperOS.Tiling
