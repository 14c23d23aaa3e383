import Mathlib.Data.FinEnum
import VesperOS.Keyboard.KeyboardDriver

/-! # The two Shift keys

`keyboard_irq_handler` as a decoder of scancode sequences. It keeps one bit for both
Shift keys, which follows the last plain Shift code. The bit differs from the keys held
in one case only: both were held and one of them was released.
-/
namespace VesperOS.ShiftKeys
open KeyboardDriver

/-! ## The keys behind a sequence of bytes -/

/-- The bytes that are neither the prefix nor follow one. -/
def plainCodes : Bool → List UInt8 → List UInt8
  | _, [] => []
  | afterPrefix, b :: bs =>
    if b = 0xE0 then plainCodes true bs
    else if afterPrefix then plainCodes false bs
    else b :: plainCodes false bs

/-- The next byte follows a prefix. -/
def extended (keys : List UInt8) : Prop := keys.getLast? = some 0xE0

/-- The last plain code of the key with make code `k` was its make code. -/
def held (k : UInt8) (keys : List UInt8) : Prop :=
  ((plainCodes false keys).filter (fun b => b = k ∨ b = k ||| 0x80)).getLast? = some k

def shiftHeld (keys : List UInt8) : Prop := held 0x2A keys ∨ held 0x36 keys

/-- The last plain code of either Shift key. -/
def lastShift (keys : List UInt8) : Option UInt8 :=
  ((plainCodes false keys).filter (fun b => b = 0x2A ∨ b = 0xAA ∨ b = 0x36 ∨ b = 0xB6)).getLast?

def ShiftMake (keys : List UInt8) : Prop := lastShift keys = some 0x2A ∨ lastShift keys = some 0x36

instance (keys : List UInt8) : Decidable (extended keys) := inferInstanceAs (Decidable (_ = _))
instance (k : UInt8) (keys : List UInt8) : Decidable (held k keys) := inferInstanceAs (Decidable (_ = _))
instance (keys : List UInt8) : Decidable (shiftHeld keys) := inferInstanceAs (Decidable (_ ∨ _))
instance (keys : List UInt8) : Decidable (ShiftMake keys) := inferInstanceAs (Decidable (_ ∨ _))

/-! ## What the handler makes of it -/

/-- The entry of one of the two tables. -/
def tableEntry (shifted : Bool) (scancode : UInt8) : UInt8 :=
  UInt8.ofNat ((if shifted then scancodeAsciiShift else scancodeAscii).getD scancode.toNat '\x00').toNat

/-- A make code that the tables map to a character. -/
def Printable (scancode : UInt8) : Prop := scancode.toNat < scancodeAscii.length ∧ tableEntry false scancode ≠ 0

instance (scancode : UInt8) : Decidable (Printable scancode) := inferInstanceAs (Decidable (_ ∧ _))

/-- The driver after `keyboard_init` and an interrupt for each byte. -/
def after (kb : Keyboard) (keys : List UInt8) : Keyboard :=
  keys.foldl (fun kb b => (keyboardIrqHandler b kb).1) (keyboardInit kb)

/-- The interrupt passes `c` to `kb_push`, whatever the ring buffer holds by then. -/
def Types (kb : Keyboard) (scancode c : UInt8) : Prop := ∀ buf head tail,
  keyboardIrqHandler scancode { kb with buf := buf, head := head, tail := tail } =
    (kbPush c { kb with buf := buf, head := head, tail := tail },true)

/-- Every plain printable make code is translated for the Shift keys held at that moment, and a byte after a
prefix leaves the Shift state alone. -/
structure FollowsKeys (kb : Keyboard) (keys : List UInt8) : Prop where
  translated : ∀ pre scancode post, keys = pre++scancode :: post → ¬ extended pre → Printable scancode →
    Types (after kb pre) scancode (tableEntry (shiftHeld pre) scancode)
  kept : ∀ pre b post, keys = pre++b :: post → extended pre →
    (after kb (pre++[b])).shiftPressed = (after kb pre).shiftPressed

/-! ## One byte more -/

theorem after_concat (kb : Keyboard) (keys : List UInt8) (b : UInt8) :
    after kb (keys++[b]) = (keyboardIrqHandler b (after kb keys)).1 := List.foldl_append

theorem plainCodes_concat (p : Bool) (keys : List UInt8) (b : UInt8) : plainCodes p (keys++[b]) =
    plainCodes p keys++(if b = 0xE0 ∨ keys.getLast? = some 0xE0 ∨ (keys = [] ∧ p = true) then [] else [b]) := by
  induction keys generalizing p with
  | nil =>
    by_cases hb : b = 0xE0
    · simp [plainCodes,hb]
    · cases p <;> simp [plainCodes,hb]
  | cons k keys ih =>
    have hlast : (k :: keys).getLast? = some 0xE0 ↔ keys.getLast? = some 0xE0 ∨ (keys = [] ∧ k = 0xE0) := by
      cases keys with
      | nil => simp
      | cons k' keys => simp [List.getLast?_cons_cons]
    by_cases hk : k = 0xE0
    · simp only [List.cons_append,plainCodes,if_pos hk,ih,hlast]
      simp [hk]
    · cases p with
      | true =>
        simp only [List.cons_append,plainCodes,if_neg hk,ih,hlast]
        simp [hk]
      | false =>
        simp only [List.cons_append,plainCodes,if_neg hk,ih,hlast]
        simp [hk]

theorem extended_concat (keys : List UInt8) (b : UInt8) : extended (keys++[b]) ↔ b = 0xE0 := by
  unfold extended
  rw [List.getLast?_concat,Option.some.injEq]

theorem extended_nil : ¬ extended [] := by decide

theorem break_iff : ∀ b : UInt8, b &&& 0x80 ≠ 0 →
    ((b &&& 0x7F = 0x2A ∨ b &&& 0x7F = 0x36) ↔ (b = 0xAA ∨ b = 0xB6)) := by decide +kernel

theorem make_iff : ∀ b : UInt8, b &&& 0x80 = 0 → b ≠ 0xAA ∧ b ≠ 0xB6 := by decide +kernel

theorem break_ne_make : ∀ b : UInt8, b &&& 0x80 ≠ 0 → b ≠ 0x2A ∧ b ≠ 0x36 := by decide +kernel

@[simp] theorem kbPush_shiftPressed (c : UInt8) (kb : Keyboard) : (kbPush c kb).shiftPressed = kb.shiftPressed := by
  unfold kbPush
  dsimp only
  split <;> rfl

@[simp] theorem kbPush_extendedCode (c : UInt8) (kb : Keyboard) : (kbPush c kb).extendedCode = kb.extendedCode := by
  unfold kbPush
  dsimp only
  split <;> rfl

theorem handler_extendedCode (b : UInt8) (kb : Keyboard) :
    (keyboardIrqHandler b kb).1.extendedCode = decide (b = 0xE0) := by
  unfold keyboardIrqHandler
  by_cases hb : b = 0xE0
  · rw [if_pos hb,decide_eq_true hb]
  · rw [if_neg hb,decide_eq_false hb]
    by_cases he : kb.extendedCode = true
    · rw [if_pos he]
      dsimp only
      split_ifs <;> simp
    · rw [if_neg he]
      dsimp only
      split_ifs <;> simp [he]

/-- After a prefix the Shift bit stays; otherwise it follows the Shift codes. -/
theorem handler_shiftPressed (b : UInt8) (kb : Keyboard) : (keyboardIrqHandler b kb).1.shiftPressed =
    if b = 0xE0 ∨ kb.extendedCode = true then kb.shiftPressed
    else if b = 0xAA ∨ b = 0xB6 then false
    else if b = 0x2A ∨ b = 0x36 then true
    else kb.shiftPressed := by
  unfold keyboardIrqHandler
  by_cases hb : b = 0xE0
  · rw [if_pos hb,if_pos (Or.inl hb)]
  · rw [if_neg hb]
    by_cases he : kb.extendedCode = true
    · rw [if_pos he,if_pos (Or.inr he)]
      dsimp only
      split_ifs <;> simp
    · rw [if_neg he,if_neg (not_or.mpr ⟨hb,he⟩)]
      by_cases hm : b &&& 0x80 = 0
      · rw [if_neg (not_not.mpr hm),if_neg (not_or.mpr (make_iff b hm))]
        dsimp only
        split_ifs <;> simp
      · rw [if_pos hm]
        dsimp only
        rw [if_congr (break_iff b hm) rfl rfl,if_neg (not_or.mpr (break_ne_make b hm))]
        split_ifs <;> rfl

/-! ## The state after a sequence -/

theorem after_extendedCode (kb : Keyboard) (keys : List UInt8) :
    (after kb keys).extendedCode = true ↔ extended keys := by
  rcases List.eq_nil_or_concat' keys with rfl | ⟨keys,b,rfl⟩
  · exact iff_of_false Bool.false_ne_true extended_nil
  · rw [after_concat,handler_extendedCode,extended_concat,decide_eq_true_iff]

theorem plainCodes_snoc {keys : List UInt8} {b : UInt8} : plainCodes false (keys++[b]) =
    plainCodes false keys++(if b = 0xE0 ∨ extended keys then [] else [b]) := by
  rw [plainCodes_concat]
  congr 1
  apply if_congr _ rfl rfl
  simp [extended]

theorem lastShift_snoc (keys : List UInt8) (b : UInt8) : lastShift (keys++[b]) =
    if b = 0xE0 ∨ extended keys then lastShift keys
    else if b = 0x2A ∨ b = 0xAA ∨ b = 0x36 ∨ b = 0xB6 then some b else lastShift keys := by
  unfold lastShift
  rw [plainCodes_snoc,List.filter_append]
  by_cases hx : b = 0xE0 ∨ extended keys
  · simp [hx]
  · rw [if_neg hx,if_neg hx]
    by_cases hs : b = 0x2A ∨ b = 0xAA ∨ b = 0x36 ∨ b = 0xB6
    · rw [if_pos hs,List.filter_cons_of_pos (by simpa using hs),List.filter_nil,List.getLast?_concat]
    · rw [if_neg hs,List.filter_cons_of_neg (by simpa using hs),List.filter_nil,List.append_nil]

/-- The Shift bit is set by the last plain Shift code. -/
theorem after_shiftPressed (kb : Keyboard) (keys : List UInt8) :
    (after kb keys).shiftPressed = true ↔ ShiftMake keys := by
  induction keys using List.reverseRecOn with
  | nil => exact iff_of_false Bool.false_ne_true (by decide)
  | append_singleton keys b ih =>
    rw [after_concat,handler_shiftPressed,if_congr (or_congr_right (after_extendedCode kb keys)) rfl rfl]
    unfold ShiftMake at *
    rw [lastShift_snoc]
    by_cases hx : b = 0xE0 ∨ extended keys
    · rw [if_pos hx,if_pos hx]
      exact ih
    · rw [if_neg hx,if_neg hx]
      by_cases hbreak : b = 0xAA ∨ b = 0xB6
      · rcases hbreak with rfl | rfl <;> simp
      · by_cases hmake : b = 0x2A ∨ b = 0x36
        · rcases hmake with rfl | rfl <;> simp
        · rw [if_neg hbreak,if_neg hmake,if_neg (by tauto)]
          exact ih

/-- The last element that passes a filter also is the last one that passes a finer filter. -/
theorem getLast?_filter_of_filter {l : List UInt8} {p q : UInt8 → Bool} {k : UInt8} (hqp : ∀ b, q b = true → p b = true)
    (hq : q k = true) (h : (l.filter p).getLast? = some k) : (l.filter q).getLast? = some k := by
  have hsplit : l.filter q = (l.filter p).filter q := by
    rw [List.filter_filter]
    apply List.filter_congr
    intro b _
    cases hb : q b with
    | false => simp
    | true => simp [hqp b hb]
  obtain ⟨m,hm⟩ := List.getLast?_eq_some_iff.mp h
  rw [hsplit,hm,List.filter_append,List.filter_cons_of_pos hq,List.filter_nil,List.getLast?_concat]

/-- A set Shift bit is never wrong. -/
theorem shiftHeld_of_make {keys : List UInt8} (h : ShiftMake keys) : shiftHeld keys := by
  rcases h with h | h
  · left
    apply getLast?_filter_of_filter _ (by decide) h
    intro b hb
    rcases of_decide_eq_true hb with rfl | rfl <;> decide
  · right
    apply getLast?_filter_of_filter _ (by decide) h
    intro b hb
    rcases of_decide_eq_true hb with rfl | rfl <;> decide

/-! ## Translation -/

theorem printable_plain : ∀ b : UInt8, Printable b → b ≠ 0xE0 ∧ b &&& 0x80 = 0 ∧ b ≠ 0x2A ∧ b ≠ 0x36 ∧
    tableEntry true b ≠ 0 := by decide +kernel

theorem types_entry {kb : Keyboard} (he : kb.extendedCode = false) {b : UInt8} (hb : Printable b) :
    Types kb b (tableEntry kb.shiftPressed b) := by
  intro buf head tail
  obtain ⟨h0,h1,h2,h3,h4⟩ := printable_plain b hb
  have hc : tableEntry kb.shiftPressed b ≠ 0 := by
    cases kb.shiftPressed with
    | false => exact hb.2
    | true => exact h4
  unfold keyboardIrqHandler
  simp only [h0,he,h1,h2,h3,or_self,ne_eq,not_true_eq_false,if_false,Bool.false_eq_true,if_pos hb.1]
  exact if_pos hc

/-- In an empty buffer the character can be seen. -/
theorem types_unique {kb : Keyboard} {b c c' : UInt8} (h : Types kb b c) (h' : Types kb b c') : c = c' := by
  have he := (h (fun _ => 0) 0 0).symm.trans (h' (fun _ => 0) 0 0)
  have hcell := congrFun (congrArg (fun r => r.1.buf) he) 0
  simpa [kbPush,kbBufSize] using hcell

/-- A Shift key is held though the last Shift code was a release. -/
def OneReleased (keys : List UInt8) : Prop := shiftHeld keys ∧ ¬ ShiftMake keys

theorem extendedCode_eq_false {kb : Keyboard} {keys : List UInt8} (h : ¬ extended keys) :
    (after kb keys).extendedCode = false := by
  rw [← Bool.not_eq_true,after_extendedCode]
  exact h

theorem shiftPressed_eq_false {kb : Keyboard} {keys : List UInt8} (h : ¬ ShiftMake keys) :
    (after kb keys).shiftPressed = false := by
  rw [← Bool.not_eq_true,after_shiftPressed]
  exact h

/-- With the wrong Shift bit such a key is translated by the wrong table. -/
theorem FollowsKeys.not_oneReleased {kb : Keyboard} {keys pre post : List UInt8} {scancode : UInt8}
    (h : FollowsKeys kb keys) (hkeys : keys = pre++scancode :: post) (hx : ¬ extended pre) (hp : Printable scancode)
    (hne : tableEntry true scancode ≠ tableEntry false scancode) : ¬ OneReleased pre := by
  intro hone
  have hpush := types_unique (types_entry (extendedCode_eq_false hx) hp) (h.translated pre scancode post hkeys hx hp)
  rw [shiftPressed_eq_false hone.2,decide_eq_true hone.1] at hpush
  exact hne hpush.symm

/-- The handler decodes a sequence for the keys held exactly when no plain make code whose two table entries
differ comes while one Shift key is held and the other was released last. -/
theorem shift_followed_iff (kb : Keyboard) (keys : List UInt8) : FollowsKeys kb keys ↔
    ∀ pre scancode post, keys = pre++scancode :: post → ¬ extended pre → Printable scancode →
      tableEntry true scancode ≠ tableEntry false scancode → ¬ OneReleased pre := by
  constructor
  · intro h pre scancode post
    exact h.not_oneReleased
  · intro h
    constructor
    · intro pre scancode post hkeys hx hp
      have htyped := @types_entry _ (extendedCode_eq_false hx : (after kb pre).extendedCode = false) _ hp
      by_cases hm : ShiftMake pre
      · rw [(after_shiftPressed kb pre).mpr hm] at htyped
        rwa [decide_eq_true (shiftHeld_of_make hm)]
      · rw [shiftPressed_eq_false hm] at htyped
        by_cases hh : shiftHeld pre
        · rw [decide_eq_true hh]
          by_cases hne : tableEntry true scancode = tableEntry false scancode
          · rwa [hne]
          · exact absurd ⟨hh,hm⟩ (h pre scancode post hkeys hx hp hne)
        · rwa [decide_eq_false hh]
    · intro pre b post _ hx
      rw [after_concat,handler_shiftPressed,if_pos (Or.inr ((after_extendedCode kb pre).mpr hx))]

/-- Both Shift keys pressed, the right one released, then the key `a`. -/
theorem shift_lost : ¬ FollowsKeys ⟨fun _ => 0,0,0,false,false⟩ [0x2A,0x36,0xB6,0x1E] := by
  intro h
  exact @FollowsKeys.not_oneReleased _ _ [0x2A,0x36,0xB6] [] 0x1E h rfl (by decide) (by decide) (by decide)
    ⟨by decide,by decide⟩

end VesperOS.ShiftKeys
