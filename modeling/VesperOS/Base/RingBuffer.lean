import Mathlib.Tactic

/-! # Ring buffers

A buffer of fixed capacity with a read index, a write index and a counter, over any
type of elements. The indices wrap around; the elements between them, read in order,
are a queue, and storing and taking one element are its two operations.
-/
namespace VesperOS.RingBuffer
variable {α : Type*}

structure RingQueue (α : Type*) where
  buf : ℕ → α
  head : ℕ
  tail : ℕ
  count : ℕ

/-- Both indices inside the buffer, and as far apart as the counter says. -/
structure RingQueue.Wf (capacity : ℕ) (r : RingQueue α) : Prop where
  head_lt : r.head < capacity
  tail_eq : r.tail = (r.head+r.count) % capacity
  count_le : r.count ≤ capacity

theorem RingQueue.Wf.tail_lt {capacity : ℕ} {r : RingQueue α} (h : r.Wf capacity) : r.tail < capacity := by
  rw [h.tail_eq]
  exact Nat.mod_lt _ (by have := h.head_lt; omega)

/-- The elements stored, oldest first. -/
def RingQueue.contents (capacity : ℕ) (r : RingQueue α) : List α :=
  (List.range r.count).map (fun i => r.buf ((r.head+i) % capacity))

def RingQueue.push (capacity : ℕ) (r : RingQueue α) (a : α) : RingQueue α :=
  { r with buf := Function.update r.buf r.tail a, tail := (r.tail+1) % capacity, count := r.count+1 }

def RingQueue.pop (capacity : ℕ) (r : RingQueue α) : RingQueue α :=
  { r with head := (r.head+1) % capacity, count := r.count-1 }

variable {capacity : ℕ} {r : RingQueue α}

/-- Two offsets below the capacity reach different cells. -/
theorem offset_ne {h i j : ℕ} (hi : i < capacity) (hj : j < capacity) (hne : i ≠ j) :
    (h+i) % capacity ≠ (h+j) % capacity := by
  intro he
  have hmod : i ≡ j [MOD capacity] := Nat.ModEq.add_left_cancel' h he
  exact hne (by rwa [Nat.ModEq,Nat.mod_eq_of_lt hi,Nat.mod_eq_of_lt hj] at hmod)

theorem RingQueue.Wf.push (hw : r.Wf capacity) (hroom : r.count < capacity) (a : α) : (r.push capacity a).Wf capacity := by
  constructor
  · exact hw.head_lt
  · change (r.tail+1) % capacity = (r.head+(r.count+1)) % capacity
    rw [hw.tail_eq,Nat.mod_add_mod,Nat.add_assoc]
  · exact hroom

theorem RingQueue.Wf.pop (hw : r.Wf capacity) (hne : 0 < r.count) : (r.pop capacity).Wf capacity := by
  have hlt := hw.head_lt
  have hle := hw.count_le
  constructor
  · exact Nat.mod_lt _ (by omega)
  · change r.tail = ((r.head+1) % capacity+(r.count-1)) % capacity
    rw [hw.tail_eq,Nat.mod_add_mod,show r.head+1+(r.count-1) = r.head+r.count by omega]
  · change r.count-1 ≤ capacity
    omega

/-- Storing appends at the end of the queue. -/
theorem RingQueue.contents_push (hw : r.Wf capacity) (hroom : r.count < capacity) (a : α) :
    (r.push capacity a).contents capacity = r.contents capacity++[a] := by
  unfold contents push
  rw [List.range_succ,List.map_append,List.map_singleton]
  congr 1
  · apply List.map_congr_left
    intro i hi
    rw [List.mem_range] at hi
    apply Function.update_of_ne
    rw [hw.tail_eq]
    exact offset_ne (by omega) hroom (by omega)
  · dsimp only
    rw [hw.tail_eq,Function.update_self]

/-- Taking removes the front of the queue. -/
theorem RingQueue.contents_pop (hw : r.Wf capacity) (hne : 0 < r.count) :
    r.contents capacity = r.buf r.head :: (r.pop capacity).contents capacity := by
  have hcount : r.count = r.count-1+1 := by omega
  have hfront : r.head % capacity = r.head := Nat.mod_eq_of_lt hw.head_lt
  unfold contents pop
  rw [hcount,List.range_succ_eq_map,List.map_cons,List.map_map,Nat.add_zero,hfront]
  congr 1
  apply List.map_congr_left
  intro i _
  dsimp only [Function.comp_apply]
  rw [Nat.mod_add_mod,Nat.succ_eq_add_one,Nat.add_right_comm,Nat.add_assoc]

end VesperOS.RingBuffer
