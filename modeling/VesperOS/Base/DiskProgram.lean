import Mathlib.Logic.Function.Basic
import Mathlib.Data.Nat.Notation

/-! # Programs over a sector device

A program reads and writes single sectors and sees only whether a transfer
succeeded. `run` executes it on a drive without faults, `Exec` on one where any
transfer may fail and execution may stop anywhere. `Always` is the corresponding
proof rule: a condition on every disk that can be left behind, and one on the
disks with which the program returns.
-/
namespace VesperOS.DiskProgram
variable {σ α β : Type}

inductive Prog (σ α : Type) : Type where
  | ret (a : α)
  | read (lba : ℕ) (next : Option σ → Prog σ α)
  | write (lba : ℕ) (s : σ) (next : Bool → Prog σ α)

def Prog.bind (f : α → Prog σ β) : Prog σ α → Prog σ β
  | .ret a => f a
  | .read lba next => .read lba (fun r => (next r).bind f)
  | .write lba s next => .write lba s (fun ok => (next ok).bind f)

instance : Monad (Prog σ) where
  pure := .ret
  bind p f := p.bind f

/-- `none` when the transfer failed. -/
def readAt (lba : ℕ) : Prog σ (Option σ) := .read lba .ret

/-- `false` when the transfer failed. -/
def writeAt (lba : ℕ) (s : σ) : Prog σ Bool := .write lba s .ret

/-- Which transfers a drive accepts, and the sector that an address selects. -/
structure Drive where
  accepts : ℕ → Bool
  place : ℕ → ℕ

abbrev Disk (σ : Type) := ℕ → σ

/-! ## Without faults -/

def run (D : Drive) : Prog σ α → Disk σ → α × Disk σ
  | .ret a, d => (a,d)
  | .read lba next, d => run D (next (if D.accepts lba then some (d (D.place lba)) else none)) d
  | .write lba s next, d =>
    run D (next (D.accepts lba)) (if D.accepts lba then Function.update d (D.place lba) s else d)

@[simp] theorem run_pure (D : Drive) (a : α) (d : Disk σ) : run D (pure a) d = (a,d) := rfl

@[simp] theorem run_bind (D : Drive) (p : Prog σ α) (f : α → Prog σ β) (d : Disk σ) :
    run D (p >>= f) d = run D (f (run D p d).1) (run D p d).2 := by
  change run D (p.bind f) d = _
  induction p generalizing d with
  | ret a => rfl
  | read lba next ih => exact ih _ d
  | write lba s next ih => exact ih _ _

@[simp] theorem run_readAt (D : Drive) (lba : ℕ) (d : Disk σ) :
    run D (readAt lba) d = (if D.accepts lba then some (d (D.place lba)) else none,d) := rfl

@[simp] theorem run_writeAt (D : Drive) (lba : ℕ) (s : σ) (d : Disk σ) :
    run D (writeAt lba s) d = (D.accepts lba,if D.accepts lba then Function.update d (D.place lba) s else d) := rfl

/-- Every address that the run asks for. -/
def Requests (D : Drive) (R : ℕ → Prop) : Prog σ α → Disk σ → Prop
  | .ret _, _ => True
  | .read lba next, d => R lba ∧ Requests D R (next (if D.accepts lba then some (d (D.place lba)) else none)) d
  | .write lba s next, d => R lba ∧
      Requests D R (next (D.accepts lba)) (if D.accepts lba then Function.update d (D.place lba) s else d)

theorem requests_bind (D : Drive) (R : ℕ → Prop) (p : Prog σ α) (f : α → Prog σ β) (d : Disk σ) :
    Requests D R (p >>= f) d ↔ Requests D R p d ∧ Requests D R (f (run D p d).1) (run D p d).2 := by
  change Requests D R (p.bind f) d ↔ _
  induction p generalizing d with
  | ret a => exact (true_and (Requests D R (f a) d)).symm ▸ Iff.rfl
  | read lba next ih => exact (and_congr_right fun _ => ih _ d).trans and_assoc.symm
  | write lba s next ih => exact (and_congr_right fun _ => ih _ _).trans and_assoc.symm

/-! ## With faults -/

/-- Executions in which any transfer may fail, a failed write may have reached the sector all the same,
and execution may stop at any point, which leaves no result. -/
inductive Exec (D : Drive) : Disk σ → Prog σ α → Option α → Disk σ → Prop
  | ret (d : Disk σ) (a : α) : Exec D d (.ret a) (some a) d
  | stop (d : Disk σ) (p : Prog σ α) : Exec D d p none d
  | read {d d' : Disk σ} {lba : ℕ} {next : Option σ → Prog σ α} {r : Option α} : D.accepts lba = true →
      Exec D d (next (some (d (D.place lba)))) r d' → Exec D d (.read lba next) r d'
  | readFail {d d' : Disk σ} {lba : ℕ} {next : Option σ → Prog σ α} {r : Option α} :
      Exec D d (next none) r d' → Exec D d (.read lba next) r d'
  | write {d d' : Disk σ} {lba : ℕ} {s : σ} {next : Bool → Prog σ α} {r : Option α} (ok : Bool) :
      D.accepts lba = true → Exec D (Function.update d (D.place lba) s) (next ok) r d' →
      Exec D d (.write lba s next) r d'
  | writeFail {d d' : Disk σ} {lba : ℕ} {s : σ} {next : Bool → Prog σ α} {r : Option α} :
      Exec D d (next false) r d' → Exec D d (.write lba s next) r d'

/-- The disk when the machine stops after `n` transfers without a fault. -/
def stopAfter (D : Drive) : ℕ → Prog σ α → Disk σ → Disk σ
  | 0, _, d => d
  | _, .ret _, d => d
  | n+1, .read lba next, d => stopAfter D n (next (if D.accepts lba then some (d (D.place lba)) else none)) d
  | n+1, .write lba s next, d =>
    stopAfter D n (next (D.accepts lba)) (if D.accepts lba then Function.update d (D.place lba) s else d)

theorem exec_stopAfter (D : Drive) (n : ℕ) (p : Prog σ α) (d : Disk σ) : Exec D d p none (stopAfter D n p d) := by
  induction n generalizing p d with
  | zero => exact .stop d p
  | succ n ih =>
    cases p with
    | ret a => exact .stop d _
    | read lba next =>
      unfold stopAfter
      cases h : D.accepts lba with
      | true => exact .read h (ih _ d)
      | false => exact .readFail (ih _ d)
    | write lba s next =>
      unfold stopAfter
      cases h : D.accepts lba with
      | true => exact .write true h (ih _ _)
      | false => exact .writeFail (ih _ d)

/-- A run without faults is one of the executions. -/
theorem exec_run (D : Drive) (p : Prog σ α) (d : Disk σ) : Exec D d p (some (run D p d).1) (run D p d).2 := by
  induction p generalizing d with
  | ret a => exact .ret d a
  | read lba next ih =>
    cases h : D.accepts lba with
    | true =>
      have hr := ih (some (d (D.place lba))) d
      simp only [run,h]
      exact .read h hr
    | false =>
      have hr := ih none d
      simp only [run,h]
      exact .readFail hr
  | write lba s next ih =>
    cases h : D.accepts lba with
    | true =>
      have hr := ih true (Function.update d (D.place lba) s)
      simp only [run,h]
      exact .write true h hr
    | false =>
      have hr := ih false d
      simp only [run,h]
      exact .writeFail hr

/-- `Q` holds of every disk on the way, and `R` of every result with its disk. -/
def Always (D : Drive) (Q : Disk σ → Prop) (R : α → Disk σ → Prop) : Prog σ α → Disk σ → Prop
  | .ret a, d => Q d ∧ R a d
  | .read lba next, d => Q d ∧ Always D Q R (next none) d ∧
      (D.accepts lba = true → Always D Q R (next (some (d (D.place lba)))) d)
  | .write lba s next, d => Q d ∧ Always D Q R (next false) d ∧
      (D.accepts lba = true → ∀ ok, Always D Q R (next ok) (Function.update d (D.place lba) s))

section Rules
variable {D : Drive} {Q : Disk σ → Prop}

theorem Always.now {R : α → Disk σ → Prop} {p : Prog σ α} {d : Disk σ} (h : Always D Q R p d) : Q d := by
  cases p <;> exact h.1

theorem Always.sound {R : α → Disk σ → Prop} {p : Prog σ α} {d d' : Disk σ} {r : Option α}
    (he : Exec D d p r d') (h : Always D Q R p d) : Q d' ∧ ∀ a, r = some a → R a d' := by
  induction he with
  | ret d a =>
    refine ⟨h.1,?_⟩
    intro a' ha
    cases ha
    exact h.2
  | stop d p =>
    refine ⟨h.now,?_⟩
    intro a ha
    cases ha
  | read hacc _ ih => exact ih (h.2.2 hacc)
  | readFail _ ih => exact ih h.2.1
  | write ok hacc _ ih => exact ih (h.2.2 hacc ok)
  | writeFail _ ih => exact ih h.2.1

theorem Always.bind {R : α → Disk σ → Prop} {S : β → Disk σ → Prop} {p : Prog σ α} {f : α → Prog σ β} {d : Disk σ}
    (h : Always D Q R p d) (hf : ∀ a d', Q d' → R a d' → Always D Q S (f a) d') :
    Always D Q S (p >>= f) d := by
  change Always D Q S (p.bind f) d
  induction p generalizing d with
  | ret a => exact hf a d h.1 h.2
  | read lba next ih => exact ⟨h.1,ih none h.2.1,fun hacc => ih _ (h.2.2 hacc)⟩
  | write lba s next ih => exact ⟨h.1,ih false h.2.1,fun hacc ok => ih ok (h.2.2 hacc ok)⟩

theorem Always.mono {R S : α → Disk σ → Prop} {p : Prog σ α} {d : Disk σ} (h : Always D Q R p d)
    (hrs : ∀ a d', R a d' → S a d') : Always D Q S p d := by
  induction p generalizing d with
  | ret a => exact ⟨h.1,hrs a d h.2⟩
  | read lba next ih => exact ⟨h.1,ih none h.2.1,fun hacc => ih _ (h.2.2 hacc)⟩
  | write lba s next ih => exact ⟨h.1,ih false h.2.1,fun hacc ok => ih ok (h.2.2 hacc ok)⟩

theorem Always.pure {R : α → Disk σ → Prop} {a : α} {d : Disk σ} (hq : Q d) (hr : R a d) :
    Always D Q R (Pure.pure a) d := ⟨hq,hr⟩

theorem Always.readAt {lba : ℕ} {d : Disk σ} (hq : Q d) :
    Always D Q (fun r d' => d' = d ∧ (r = none ∨ (D.accepts lba = true ∧ r = some (d (D.place lba)))))
      (DiskProgram.readAt lba) d :=
  ⟨hq,⟨hq,rfl,Or.inl rfl⟩,fun hacc => ⟨hq,rfl,Or.inr ⟨hacc,rfl⟩⟩⟩

theorem Always.writeAt {lba : ℕ} {s : σ} {d : Disk σ} (hq : Q d)
    (hw : D.accepts lba = true → Q (Function.update d (D.place lba) s)) :
    Always D Q (fun ok d' => (ok = false ∧ d' = d) ∨
        (D.accepts lba = true ∧ d' = Function.update d (D.place lba) s))
      (DiskProgram.writeAt lba s) d :=
  ⟨hq,⟨hq,Or.inl ⟨rfl,rfl⟩⟩,fun hacc _ => ⟨hw hacc,Or.inr ⟨hacc,rfl⟩⟩⟩

end Rules

end VesperOS.DiskProgram
