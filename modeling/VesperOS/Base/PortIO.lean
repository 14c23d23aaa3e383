import Mathlib.Data.Nat.Notation
import Mathlib.Data.List.Basic
import Mathlib.Tactic.Common

/-! # Devices behind ports

A device answers reads of a port and takes writes to it, and both change its state. A driver that waits for a bit
of a status port reads it again and again; the rule for such a loop asks for a bound on how often the device still
answers that it is not ready.
-/
namespace VesperOS.PortIO
variable {σ α : Type}

structure Ports (σ : Type) where
  inb : ℕ → σ → UInt8 × σ
  outb : ℕ → UInt8 → σ → σ
  inw : ℕ → σ → UInt16 × σ
  outw : ℕ → UInt16 → σ → σ

/-- Read a port until the answer decides, at most so many times. -/
def poll (P : Ports σ) (port : ℕ) (f : UInt8 → Option α) : ℕ → σ → Option α × σ
  | 0, s => (none,s)
  | k+1, s =>
    match f (P.inb port s).1 with
    | some a => (some a,(P.inb port s).2)
    | none => poll P port f k (P.inb port s).2

/-- `n` reads of a port whose answers are not looked at. -/
def skip (P : Ports σ) (port : ℕ) : ℕ → σ → σ
  | 0, s => s
  | n+1, s => skip P port n (P.inb port s).2

/-- `n` words from a data port. -/
def readWords (P : Ports σ) (port : ℕ) : ℕ → σ → List UInt16 × σ
  | 0, s => ([],s)
  | n+1, s =>
    let r := readWords P port n (P.inw port s).2
    ((P.inw port s).1 :: r.1,r.2)

def writeWords (P : Ports σ) (port : ℕ) (ws : List UInt16) (s : σ) : σ := ws.foldl (fun s w => P.outw port w s) s

/-- A mask picks its bits out of a status that is put together from several. -/
theorem or_and_distrib (x y z : UInt8) : (x ||| y) &&& z = (x &&& z) ||| (y &&& z) :=
  UInt8.toBitVec_inj.mp BitVec.and_or_distrib_right

/-- `r` bounds the answers that do not decide; `I` is kept by them, and the one that decides leaves `Q`. -/
theorem poll_spec {P : Ports σ} {n : ℕ} {f : UInt8 → Option α} {I Q : σ → Prop} {r : σ → ℕ} {a : α}
    (hwait : ∀ s, I s → 0 < r s → f (P.inb n s).1 = none ∧ I (P.inb n s).2 ∧ r (P.inb n s).2+1 = r s)
    (hready : ∀ s, I s → r s = 0 → f (P.inb n s).1 = some a ∧ Q (P.inb n s).2) {k : ℕ} {s : σ} (hs : I s)
    (hk : r s < k) : (poll P n f k s).1 = some a ∧ Q (poll P n f k s).2 := by
  induction k generalizing s with
  | zero => exact absurd hk (Nat.not_lt_zero _)
  | succ k ih =>
    unfold poll
    rcases Nat.eq_zero_or_pos (r s) with h0 | hpos
    · obtain ⟨ha,hq⟩ := hready s hs h0
      rw [ha]
      exact ⟨rfl,hq⟩
    · obtain ⟨hn,hi,hr⟩ := hwait s hs hpos
      rw [hn]
      exact ih hi (by omega)

theorem skip_spec {P : Ports σ} {port : ℕ} {I : σ → Prop} (h : ∀ s, I s → I (P.inb port s).2) (n : ℕ) {s : σ} (hs : I s) :
    I (skip P port n s) := by
  induction n generalizing s with
  | zero => exact hs
  | succ n ih => exact ih (h s hs)

end VesperOS.PortIO
