import VesperOS.Base.DiskProgram
import Mathlib.Data.List.Basic
import Mathlib.Tactic.Common

/-! # Runs under a pattern of faults

The executions of `DiskProgram.Exec` in which the failing transfers are given in
advance: transfer number `n` fails when `fails n` holds, and a failed write leaves its
sector alone. With the pattern fixed a program has one outcome, which can be
computed and tells which transfer was which.
-/
namespace VesperOS.FaultPattern
open DiskProgram
variable {σ α β : Type}

structure Outcome (σ α : Type) where
  result : α
  /-- The number of the next transfer. -/
  used : ℕ
  disk : Disk σ

section Runs
variable (D : Drive) (fails : ℕ → Bool)

/-- Transfer `n`, to `lba`, succeeds. -/
def passes (n lba : ℕ) : Bool := D.accepts lba && !fails n

def faultyRun : Prog σ α → ℕ → Disk σ → Outcome σ α
  | .ret a, n, d => ⟨a,n,d⟩
  | .read lba next, n, d =>
    faultyRun (next (if passes D fails n lba then some (d (D.place lba)) else none)) (n+1) d
  | .write lba s next, n, d =>
    faultyRun (next (passes D fails n lba)) (n+1)
      (if passes D fails n lba then Function.update d (D.place lba) s else d)

/-- The sectors that the drive is told to write, in order. -/
def commands : Prog σ α → ℕ → Disk σ → List ℕ
  | .ret _, _, _ => []
  | .read lba next, n, d =>
    commands (next (if passes D fails n lba then some (d (D.place lba)) else none)) (n+1) d
  | .write lba s next, n, d =>
    D.place lba :: commands (next (passes D fails n lba)) (n+1)
      (if passes D fails n lba then Function.update d (D.place lba) s else d)

@[simp] theorem faultyRun_pure (a : α) (n : ℕ) (d : Disk σ) : faultyRun D fails (pure a) n d = ⟨a,n,d⟩ := rfl

@[simp] theorem faultyRun_bind (p : Prog σ α) (f : α → Prog σ β) (n : ℕ) (d : Disk σ) :
    faultyRun D fails (p >>= f) n d = faultyRun D fails (f (faultyRun D fails p n d).result)
      (faultyRun D fails p n d).used (faultyRun D fails p n d).disk := by
  change faultyRun D fails (p.bind f) n d = _
  induction p generalizing n d with
  | ret a => rfl
  | read lba next ih => exact ih _ (n+1) d
  | write lba s next ih => exact ih _ (n+1) _

@[simp] theorem faultyRun_readAt (lba n : ℕ) (d : Disk σ) : faultyRun D fails (readAt lba) n d =
    ⟨if passes D fails n lba then some (d (D.place lba)) else none,n+1,d⟩ := rfl

@[simp] theorem faultyRun_writeAt (lba : ℕ) (s : σ) (n : ℕ) (d : Disk σ) : faultyRun D fails (writeAt lba s) n d =
    ⟨passes D fails n lba,n+1,if passes D fails n lba then Function.update d (D.place lba) s else d⟩ := rfl

@[simp] theorem commands_pure (a : α) (n : ℕ) (d : Disk σ) : commands D fails (pure a) n d = [] := rfl

@[simp] theorem commands_bind (p : Prog σ α) (f : α → Prog σ β) (n : ℕ) (d : Disk σ) :
    commands D fails (p >>= f) n d = commands D fails p n d++commands D fails (f (faultyRun D fails p n d).result)
      (faultyRun D fails p n d).used (faultyRun D fails p n d).disk := by
  change commands D fails (p.bind f) n d = _
  induction p generalizing n d with
  | ret a => rfl
  | read lba next ih => exact ih _ (n+1) d
  | write lba s next ih => exact congrArg (D.place lba :: ·) (ih _ (n+1) _)

@[simp] theorem commands_readAt (lba n : ℕ) (d : Disk σ) : commands D fails (readAt lba) n d = [] := rfl

@[simp] theorem commands_writeAt (lba : ℕ) (s : σ) (n : ℕ) (d : Disk σ) :
    commands D fails (writeAt lba s) n d = [D.place lba] := rfl

/-- A run under a pattern is one of the executions with faults. -/
theorem exec_faultyRun (p : Prog σ α) (n : ℕ) (d : Disk σ) :
    Exec D d p (some (faultyRun D fails p n d).result) (faultyRun D fails p n d).disk := by
  induction p generalizing n d with
  | ret a => exact .ret d a
  | read lba next ih =>
    cases h : passes D fails n lba with
    | true =>
      have hacc : D.accepts lba = true := (Bool.and_eq_true_iff.mp h).1
      have hr := ih (some (d (D.place lba))) (n+1) d
      simp only [faultyRun,h,if_true]
      exact .read hacc hr
    | false =>
      have hr := ih none (n+1) d
      simp only [faultyRun,h]
      exact .readFail hr
  | write lba s next ih =>
    cases h : passes D fails n lba with
    | true =>
      have hacc : D.accepts lba = true := (Bool.and_eq_true_iff.mp h).1
      have hr := ih true (n+1) (Function.update d (D.place lba) s)
      simp only [faultyRun,h,if_true]
      exact .write true hacc hr
    | false =>
      have hr := ih false (n+1) d
      simp only [faultyRun,h]
      exact .writeFail hr

/-- What holds of every execution with faults holds under each pattern. -/
theorem always_faulty {D : Drive} {Q : Disk σ → Prop} {R : α → Disk σ → Prop} {p : Prog σ α} {d : Disk σ}
    (h : Always D Q R p d) (fails : ℕ → Bool) (n : ℕ) :
    Q (faultyRun D fails p n d).disk ∧ R (faultyRun D fails p n d).result (faultyRun D fails p n d).disk := by
  obtain ⟨hq,hr⟩ := h.sound (exec_faultyRun D fails p n d)
  exact ⟨hq,hr _ rfl⟩

/-- Without faults the pattern makes no difference. -/
theorem faultyRun_noFaults (p : Prog σ α) (n : ℕ) (d : Disk σ) :
    (faultyRun D (fun _ => false) p n d).result = (run D p d).1 ∧
      (faultyRun D (fun _ => false) p n d).disk = (run D p d).2 := by
  have hpass : ∀ n lba, passes D (fun _ => false) n lba = D.accepts lba := fun n lba => Bool.and_true _
  induction p generalizing n d with
  | ret a => exact ⟨rfl,rfl⟩
  | read lba next ih =>
    simp only [faultyRun,run,hpass]
    exact ih _ (n+1) d
  | write lba s next ih =>
    simp only [faultyRun,run,hpass]
    exact ih _ (n+1) _

end Runs

end VesperOS.FaultPattern
