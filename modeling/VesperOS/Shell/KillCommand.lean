import VesperOS.Process.ProcessTable
import VesperOS.Memory.SpaceLifecycle

/-! # The kill command

`cmd_kill` of `shell.c` reads its argument with a loop over decimal digits in 32-bit
arithmetic, so numerals that differ by a multiple of 2^32 name the same process.
-/
namespace VesperOS.KillCommand
open Paging ProcessTable SpaceLifecycle AddressSpaces

abbrev Text := List UInt8

def isDigit (c : UInt8) : Bool := 0x30 ≤ c ∧ c ≤ 0x39

/-- The digit loops of `cmd_kill` and `cmd_sleep`. -/
def digitLoop : ℕ → Text → ℕ
  | acc, [] => acc
  | acc, c :: args => if isDigit c then digitLoop ((acc*10+(c.toNat-0x30)) % 2^32) args else acc

/-- The messages: the usage, "Process <pid> terminated." and "No such process: PID <pid>". -/
inductive KillReport where
  | usage
  | terminated (pid : ℕ)
  | noSuchProcess (pid : ℕ)

def cmdKill (args : Text) (k : Kernel) : KillReport × Kernel :=
  let pid := digitLoop 0 args
  if pid = 0 then (.usage,k)
  else
    let r := processKill pid k
    if r.1 = 0 then (.terminated pid,r.2) else (.noSuchProcess pid,r.2)

/-- The leading decimal digits, read without a bound. -/
def numeral (args : Text) : ℕ := (args.takeWhile isDigit).foldl (fun n c => n*10+(c.toNat-0x30)) 0

def Alive (k : Kernel) (i : Slot) : Prop := (k.table i).state ≠ .unused ∧ (k.table i).state ≠ .zombie

/-- The command ends a live process with this PID. -/
def Terminates (args : Text) (k : Kernel) (p : ℕ) : Prop :=
  ∃ i, (k.table i).pid = p ∧ Alive k i ∧ ((cmdKill args k).2.table i).state = .zombie

/-! ## The numeral -/

theorem digitLoop_eq (args : Text) (n : ℕ) : digitLoop (n % 2^32) args =
    (args.takeWhile isDigit).foldl (fun n c => n*10+(c.toNat-0x30)) n % 2^32 := by
  induction args generalizing n with
  | nil => rfl
  | cons c args ih =>
    rw [digitLoop,List.takeWhile_cons]
    by_cases hc : isDigit c = true
    · rw [if_pos hc,if_pos hc,List.foldl_cons,← ih]
      congr 1
      rw [Nat.add_mod,Nat.mod_mul_mod,← Nat.add_mod]
    · rw [if_neg hc,if_neg hc]
      rfl

theorem digitLoop_numeral (args : Text) : digitLoop 0 args = numeral args % 2^32 := digitLoop_eq args 0

/-! ## The process -/

theorem state_terminate (i j : Slot) (k : Kernel) : ((terminate i k).table j).state =
    if j = i then .zombie else (k.table j).state := by
  unfold terminate Kernel.setProc
  dsimp only
  by_cases hj : j = i
  · subst hj
    rw [Function.update_self,if_pos rfl]
  · rw [Function.update_of_ne hj,if_neg hj]
    split <;> rfl

theorem killSlot_eq_none {pid : ℕ} {k : Kernel} : killSlot pid k = none ↔
    ∀ i, (k.table i).pid = pid → ¬ Alive k i := by
  unfold killSlot Alive
  rw [List.find?_eq_none]
  simp only [List.mem_finRange,decide_eq_true_eq,true_imp_iff,not_and]

/-- What the command ends is what `process_kill` finds for the wrapped number. -/
theorem terminates_iff (args : Text) (k : Kernel) (p : ℕ) : Terminates args k p ↔
    p = numeral args % 2^32 ∧ p ≠ 0 ∧ (killSlot p k).isSome := by
  unfold Terminates cmdKill
  rw [digitLoop_numeral]
  by_cases h0 : numeral args % 2^32 = 0
  · rw [if_pos h0]
    constructor
    · rintro ⟨i,_,halive,hz⟩
      exact absurd hz halive.2
    · rintro ⟨hp,hne,_⟩
      exact absurd (hp.trans h0) hne
  · dsimp only
    rw [if_neg h0]
    cases hk : killSlot (numeral args % 2^32) k with
    | none =>
      have hr : processKill (numeral args % 2^32) k = (-1,k) := by
        unfold processKill
        rw [hk]
      rw [hr]
      constructor
      · rintro ⟨i,_,halive,hz⟩
        exact absurd hz halive.2
      · rintro ⟨rfl,_,hs⟩
        rw [hk] at hs
        cases hs
    | some i =>
      have hr : processKill (numeral args % 2^32) k = (0,terminate i k) := by
        unfold processKill
        rw [hk]
      obtain ⟨hpid,halive⟩ := killSlot_spec hk
      rw [hr]
      constructor
      · rintro ⟨j,hj,hjalive,hz⟩
        change ((terminate i k).table j).state = _ at hz
        rw [state_terminate] at hz
        by_cases hji : j = i
        · subst hji
          obtain rfl : numeral args % 2^32 = p := hpid.symm.trans hj
          exact ⟨rfl,h0,by rw [hk]; rfl⟩
        · rw [if_neg hji] at hz
          exact absurd hz hjalive.2
      · rintro ⟨rfl,_,_⟩
        refine ⟨i,hpid,halive,?_⟩
        change ((terminate i k).table i).state = _
        rw [state_terminate,if_pos rfl]

/-- Only the named process can be ended exactly when the numeral is below 2^32, or its remainder is 0 or the PID of no
live process. -/
theorem kill_named_iff (args : Text) (k : Kernel) : (∀ p, Terminates args k p → numeral args = p) ↔
    numeral args < 2^32 ∨ numeral args % 2^32 = 0 ∨ ∀ i, (k.table i).pid = numeral args % 2^32 → ¬ Alive k i := by
  constructor
  · intro h
    by_contra hno
    rw [not_or,not_or,← killSlot_eq_none] at hno
    obtain ⟨hbig,h0,hsome⟩ := hno
    have hp := h _ ((terminates_iff args k _).mpr ⟨rfl,h0,Option.isSome_iff_ne_none.mpr hsome⟩)
    omega
  · rintro hcond p hp
    obtain ⟨rfl,hne,hsome⟩ := (terminates_iff args k p).mp hp
    rcases hcond with hlt | h0 | hnone
    · exact (Nat.mod_eq_of_lt hlt).symm
    · exact absurd h0 hne
    · rw [killSlot_eq_none.mpr hnone] at hsome
      cases hsome

/-- `kill 4294967297` after boot ends the idle process, which has PID 1. -/
theorem kill_wraps : ¬ ∀ p, Terminates [0x34,0x32,0x39,0x34,0x39,0x36,0x37,0x32,0x39,0x37]
    (processInit sampleLayout bootedSystem.mach fun _ => ⟨⟨none,0⟩,0,.unused,0,false,0,0⟩) p →
      numeral [0x34,0x32,0x39,0x34,0x39,0x36,0x37,0x32,0x39,0x37] = p := by
  intro h
  have hp := h 1 ((terminates_iff _ _ _).mpr ⟨by decide,by decide,by decide⟩)
  exact absurd hp (by decide)

end VesperOS.KillCommand
