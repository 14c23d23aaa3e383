import VesperOS.Base.RingBuffer
import VesperOS.Keyboard.KeyboardDriver

/-! # The key buffer as a queue

The ring of `keyboard.c` has no counter: it is empty when its indices are equal, and one
cell always stays unused. Its characters are a queue of at most 63, filled by `kb_push` and
emptied by the two statements of `keyboard_getchar` after its loop, in any interleaving.
-/
namespace VesperOS.KeyQueue
open RingBuffer KeyboardDriver

/-- The two indices determine the number of characters between them. -/
def keyRing (kb : Keyboard) : RingQueue UInt8 := ⟨kb.buf,kb.head,kb.tail,(kb.tail+kbBufSize-kb.head) % kbBufSize⟩

/-- The characters pushed and not yet taken, oldest first. -/
def pending (kb : Keyboard) : List UInt8 := (keyRing kb).contents kbBufSize

/-- `kb_push` stores the character. -/
def accepts (kb : Keyboard) : Bool := (kb.tail+1) % kbBufSize ≠ kb.head

inductive QueueStep where
  | push (c : UInt8)
  | take
  | advance

/-- The buffer with the variable `c` of `keyboard_getchar`, the pushes that stored their character and the
characters returned. -/
structure Typing where
  kb : Keyboard
  inHand : Option UInt8
  accepted : List UInt8
  returned : List UInt8

/-- The loop of `keyboard_getchar` keeps its caller waiting while the buffer is empty. -/
def QueueStep.apply (t : Typing) : QueueStep → Typing
  | .push c => { t with kb := kbPush c t.kb, accepted := if accepts t.kb then t.accepted++[c] else t.accepted }
  | .take => if t.inHand = none ∧ t.kb.head ≠ t.kb.tail then { t with inHand := some (t.kb.buf t.kb.head) } else t
  | .advance =>
    match t.inHand with
    | none => t
    | some c =>
      { t with
        kb := { t.kb with head := (t.kb.head+1) % kbBufSize }
        inHand := none
        returned := t.returned++[c] }

def initial (kb : Keyboard) : Typing := ⟨keyboardInit kb,none,[],[]⟩

def run (t : Typing) (steps : List QueueStep) : Typing := steps.foldl QueueStep.apply t

/-! ## One step -/

theorem length_pending (kb : Keyboard) : (pending kb).length = (kb.tail+64-kb.head) % 64 := by
  unfold pending RingQueue.contents
  rw [List.length_map,List.length_range]
  rfl

theorem keyRing_wf {kb : Keyboard} (hh : kb.head < 64) (ht : kb.tail < 64) : (keyRing kb).Wf kbBufSize := by
  unfold keyRing kbBufSize
  constructor
  · exact hh
  · dsimp only
    omega
  · dsimp only
    omega

section Push
variable {kb : Keyboard} (hh : kb.head < 64) (ht : kb.tail < 64)
include hh ht

theorem accepts_iff : accepts kb = true ↔ (pending kb).length ≠ 63 := by
  rw [length_pending]
  unfold accepts kbBufSize
  rw [decide_eq_true_iff]
  omega

theorem pending_push (h : accepts kb = true) (c : UInt8) : pending (kbPush c kb) = pending kb++[c] := by
  have hn : (kb.tail+1) % kbBufSize ≠ kb.head := of_decide_eq_true h
  have hlen : (kb.tail+64-kb.head) % 64 ≠ 63 := by
    rw [← length_pending]
    exact (accepts_iff hh ht).mp h
  have hring : keyRing (kbPush c kb) = (keyRing kb).push kbBufSize c := by
    unfold kbPush
    simp only [if_pos hn]
    unfold keyRing RingQueue.push kbBufSize at *
    dsimp only
    congr 1
    omega
  unfold pending
  rw [hring]
  apply RingQueue.contents_push (keyRing_wf hh ht)
  unfold keyRing kbBufSize
  dsimp only
  omega

end Push

theorem kbPush_dropped {kb : Keyboard} (h : accepts kb = false) (c : UInt8) : kbPush c kb = kb :=
  if_neg (of_decide_eq_false h)

/-- The oldest character leaves. -/
theorem pending_advance {kb : Keyboard} (hh : kb.head < 64) (ht : kb.tail < 64) (hne : kb.head ≠ kb.tail) :
    pending kb = kb.buf kb.head :: pending { kb with head := (kb.head+1) % kbBufSize } := by
  have hring : keyRing { kb with head := (kb.head+1) % kbBufSize } = (keyRing kb).pop kbBufSize := by
    unfold keyRing RingQueue.pop kbBufSize
    dsimp only
    congr 1
    omega
  unfold pending
  rw [hring]
  apply RingQueue.contents_pop (keyRing_wf hh ht)
  unfold keyRing kbBufSize
  dsimp only
  omega

/-! ## Runs -/

/-- Both indices are in range, the queue holds what was accepted and not returned, and a character in hand is
the oldest of the queue. -/
structure Queued (t : Typing) : Prop where
  head_lt : t.kb.head < 64
  tail_lt : t.kb.tail < 64
  fifo : t.returned++pending t.kb = t.accepted
  inHand : ∀ c, t.inHand = some c → t.kb.head ≠ t.kb.tail ∧ t.kb.buf t.kb.head = c

theorem queued_initial (kb : Keyboard) : Queued (initial kb) := by
  have hnil : pending (keyboardInit kb) = [] := by
    apply List.eq_nil_of_length_eq_zero
    rw [length_pending]
    simp [keyboardInit]
  refine ⟨Nat.zero_lt_succ _,Nat.zero_lt_succ _,hnil,?_⟩
  intro c hc
  cases hc

theorem queued_push {t : Typing} (h : Queued t) (c : UInt8) : Queued ((QueueStep.push c).apply t) := by
  obtain ⟨hh,ht,hfifo,hhand⟩ := h
  by_cases ha : accepts t.kb = true
  · have hn : (t.kb.tail+1) % kbBufSize ≠ t.kb.head := of_decide_eq_true ha
    have hpush : kbPush c t.kb =
        { t.kb with buf := Function.update t.kb.buf t.kb.tail c, tail := (t.kb.tail+1) % kbBufSize } := if_pos hn
    simp only [QueueStep.apply,if_pos ha]
    constructor
    · dsimp only
      rw [hpush]
      exact hh
    · dsimp only
      rw [hpush]
      exact Nat.mod_lt _ (by decide)
    · dsimp only
      rw [pending_push hh ht ha,← List.append_assoc,hfifo]
    · intro c' hc'
      obtain ⟨hne,hbuf⟩ := hhand c' hc'
      dsimp only
      rw [hpush]
      exact ⟨hn.symm,(Function.update_of_ne hne _ _).trans hbuf⟩
  · have hf : accepts t.kb = false := Bool.eq_false_of_not_eq_true ha
    simp only [QueueStep.apply,if_neg ha,kbPush_dropped hf]
    exact ⟨hh,ht,hfifo,hhand⟩

theorem queued_take {t : Typing} (h : Queued t) : Queued (QueueStep.take.apply t) := by
  unfold QueueStep.apply
  dsimp only
  split
  · rename_i hc
    refine ⟨h.head_lt,h.tail_lt,h.fifo,?_⟩
    intro c hin
    exact ⟨hc.2,Option.some.inj hin⟩
  · exact h

theorem queued_advance {t : Typing} (h : Queued t) : Queued (QueueStep.advance.apply t) := by
  unfold QueueStep.apply
  dsimp only
  split
  · exact h
  · rename_i c hc
    obtain ⟨hne,hbuf⟩ := h.inHand c hc
    refine ⟨Nat.mod_lt _ (by decide),h.tail_lt,?_,?_⟩
    · dsimp only
      rw [List.append_assoc,← h.fifo,pending_advance h.head_lt h.tail_lt hne,hbuf]
      rfl
    · intro c' hin
      cases hin

theorem Queued.apply {t : Typing} (h : Queued t) (step : QueueStep) : Queued (step.apply t) := by
  cases step with
  | push c => exact queued_push h c
  | take => exact queued_take h
  | advance => exact queued_advance h

theorem Queued.run {t : Typing} (h : Queued t) (steps : List QueueStep) : Queued (KeyQueue.run t steps) := by
  induction steps generalizing t with
  | nil => exact h
  | cons step steps ih => exact ih (h.apply step)

/-- Any interleaving after `keyboard_init`: both indices stay below 64, the characters returned and then the
pending ones are the accepted pushes in order, and the next push is dropped, which changes nothing, exactly when
63 characters are pending; otherwise it joins the end of the queue. -/
theorem key_fifo (kb : Keyboard) (steps : List QueueStep) :
    (run (initial kb) steps).kb.head < 64 ∧ (run (initial kb) steps).kb.tail < 64 ∧
      (run (initial kb) steps).returned++pending (run (initial kb) steps).kb = (run (initial kb) steps).accepted ∧
      ∀ c, ((run (initial kb) (steps++[.push c])).accepted = (run (initial kb) steps).accepted ↔
          (pending (run (initial kb) steps).kb).length = 63) ∧
        ((pending (run (initial kb) steps).kb).length = 63 →
          (run (initial kb) (steps++[.push c])).kb = (run (initial kb) steps).kb) ∧
        ((pending (run (initial kb) steps).kb).length ≠ 63 →
          (run (initial kb) (steps++[.push c])).accepted = (run (initial kb) steps).accepted++[c] ∧
            pending (run (initial kb) (steps++[.push c])).kb = pending (run (initial kb) steps).kb++[c]) := by
  have h := (queued_initial kb).run steps
  refine ⟨h.head_lt,h.tail_lt,h.fifo,?_⟩
  intro c
  have hrun : run (initial kb) (steps++[.push c]) = (QueueStep.push c).apply (run (initial kb) steps) :=
    List.foldl_append
  have hiff := accepts_iff h.head_lt h.tail_lt
  rw [hrun]
  simp only [QueueStep.apply]
  by_cases ha : accepts (run (initial kb) steps).kb = true
  · have hlen := hiff.mp ha
    rw [if_pos ha]
    refine ⟨iff_of_false ?_ hlen,fun he => absurd he hlen,fun _ => ⟨rfl,pending_push h.head_lt h.tail_lt ha c⟩⟩
    simp
  · have hlen : (pending (run (initial kb) steps).kb).length = 63 := by
      by_contra hne
      exact ha (hiff.mpr hne)
    rw [if_neg ha]
    exact ⟨iff_of_true rfl hlen,fun _ => kbPush_dropped (Bool.eq_false_of_not_eq_true ha) c,fun hne => absurd hlen hne⟩

end VesperOS.KeyQueue
