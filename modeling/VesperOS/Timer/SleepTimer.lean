import Mathlib.Tactic

/-! # Sleeping

`timer_sleep_ms` against the timer interrupts. The tick counter and all arithmetic on it
are 32 bits wide. The interrupts and the tests of the waiting loop come in any order:
the processor halts between two tests, other interrupts end the halt as well, and the
scheduler may keep the sleeper away from the processor for a while.
-/
namespace VesperOS.SleepTimer

def timerHz : UInt32 := 100

/-- The `target` of `timer_sleep_ms`. -/
def sleepTarget (ticks ms : UInt32) : UInt32 := ticks+(ms*timerHz+999)/1000

inductive SleepStep where
  | irq
  | test

structure Sleeper where
  ticks : UInt32
  target : UInt32
  interrupts : ℕ
  returned : Bool

def start (ticks ms : UInt32) : Sleeper := ⟨ticks,sleepTarget ticks ms,0,false⟩

/-- After the return nothing is counted any more. -/
def SleepStep.apply (s : Sleeper) (a : SleepStep) : Sleeper :=
  if s.returned then s
  else
    match a with
    | .irq => { s with ticks := s.ticks+1, interrupts := s.interrupts+1 }
    | .test => { s with returned := !decide (s.ticks < s.target) }

def run (s : Sleeper) (steps : List SleepStep) : Sleeper := steps.foldl SleepStep.apply s

/-- The number of interrupts that the time takes, rounded up. -/
def ticksFor (ms : UInt32) : ℕ := (ms.toNat*timerHz.toNat+999)/1000

/-- However the steps come, the call returns only after that many interrupts. -/
def SleepsLongEnough (ticks ms : UInt32) : Prop :=
  ∀ steps, (run (start ticks ms) steps).returned = true → ticksFor ms ≤ (run (start ticks ms) steps).interrupts

/-! ## The counter -/

/-- Before the return the counter tells the interrupts apart, after it enough of them have come. -/
structure Counted (t : UInt32) (n : ℕ) (s : Sleeper) : Prop where
  target : s.target.toNat = t.toNat+n
  counting : s.returned = false → s.ticks.toNat = (t.toNat+s.interrupts) % 2^32
  done : s.returned = true → n ≤ s.interrupts

theorem Counted.apply {t : UInt32} {n : ℕ} {s : Sleeper} (h : Counted t n s) (a : SleepStep) : Counted t n (a.apply s) := by
  cases hr : s.returned with
  | true =>
    unfold SleepStep.apply
    rw [if_pos hr]
    exact h
  | false =>
    have hticks := h.counting hr
    have hlt := s.target.toNat_lt
    have htarget := h.target
    unfold SleepStep.apply
    rw [if_neg (by rw [hr]; decide)]
    cases a with
    | irq =>
      refine ⟨h.target,?_,?_⟩
      · intro _
        dsimp only
        rw [UInt32.toNat_add,hticks,UInt32.toNat_one]
        omega
      · intro hret
        rw [hr] at hret
        cases hret
    | test =>
      refine ⟨h.target,fun _ => hticks,?_⟩
      intro hret
      dsimp only at hret ⊢
      rw [Bool.not_eq_true',decide_eq_false_iff_not,UInt32.lt_iff_toNat_lt] at hret
      omega

theorem Counted.run {t : UInt32} {n : ℕ} {s : Sleeper} (h : Counted t n s) (steps : List SleepStep) :
    Counted t n (SleepTimer.run s steps) := by
  induction steps generalizing s with
  | nil => exact h
  | cons a steps ih => exact ih (h.apply a)

/-! ## The target -/

theorem toNat_sleepTarget (t ms : UInt32) :
    (sleepTarget t ms).toNat = (t.toNat+(ms.toNat*100+999) % 2^32/1000) % 2^32 := by
  unfold sleepTarget timerHz
  rw [UInt32.toNat_add,UInt32.toNat_div,UInt32.toNat_add,UInt32.toNat_mul]
  simp

/-- A target below the counter ends the loop at its first test. -/
theorem early_at_once {t ms : UInt32} (h : sleepTarget t ms ≤ t) (hpos : 0 < ticksFor ms) : ¬ SleepsLongEnough t ms := by
  intro hs
  have hret : (run (start t ms) [.test]).returned = true := by
    change (!decide (t < sleepTarget t ms)) = true
    rw [Bool.not_eq_true',decide_eq_false_iff_not]
    exact UInt32.not_lt.mpr h
  have hle := hs [.test] hret
  change ticksFor ms ≤ 0 at hle
  omega

theorem run_irqs (s : Sleeper) (h : s.returned = false) (n : ℕ) : run s (List.replicate n .irq) =
    { s with ticks := s.ticks+UInt32.ofNat n, interrupts := s.interrupts+n } := by
  induction n generalizing s with
  | zero => simp [run]
  | succ n ih =>
    have hone : SleepStep.irq.apply s = { s with ticks := s.ticks+1, interrupts := s.interrupts+1 } := by
      unfold SleepStep.apply
      rw [if_neg (by rw [h]; decide)]
    rw [List.replicate_succ]
    change run (SleepStep.irq.apply s) (List.replicate n .irq) = _
    rw [hone,ih { s with ticks := s.ticks+1, interrupts := s.interrupts+1 } h]
    dsimp only
    rw [Sleeper.mk.injEq]
    refine ⟨?_,rfl,by omega,rfl⟩
    rw [UInt32.add_assoc]
    congr 1
    rw [UInt32.ofNat_add,UInt32.add_comm]
    rfl

/-- A target that needs `n` interrupts is reached by them. -/
theorem early_after {t ms : UInt32} {n : ℕ} (h : sleepTarget t ms = t+UInt32.ofNat n) (hn : n < ticksFor ms) :
    ¬ SleepsLongEnough t ms := by
  intro hs
  have hrun : run (start t ms) (List.replicate n .irq++[.test]) =
      ⟨t+UInt32.ofNat n,sleepTarget t ms,n,true⟩ := by
    unfold run
    rw [List.foldl_append]
    change SleepStep.test.apply (run (start t ms) (List.replicate n .irq)) = _
    rw [run_irqs _ rfl]
    unfold SleepStep.apply start
    simp [h]
  have hle := hs (List.replicate n .irq++[.test]) (by rw [hrun])
  rw [hrun] at hle
  exact absurd hle (not_le.mpr hn)

/-- A sleep lasts as long as asked exactly when neither the conversion to ticks nor the addition to the counter
overflows. -/
theorem sleep_long_enough_iff (ticks ms : UInt32) : SleepsLongEnough ticks ms ↔
    ms.toNat*100+999 < 2^32 ∧ ticks.toNat+(ms.toNat*100+999)/1000 < 2^32 := by
  have htarget := toNat_sleepTarget ticks ms
  have hneed : ticksFor ms = (ms.toNat*100+999)/1000 := rfl
  have hlt := ticks.toNat_lt
  constructor
  · intro hs
    by_contra hover
    by_cases hwrap : ticks.toNat+(ms.toNat*100+999) % 2^32/1000 < 2^32
    · -- the conversion has wrapped
      have hconv : 2^32 ≤ ms.toNat*100+999 := by
        by_contra hconv
        rw [Nat.mod_eq_of_lt (not_le.mp hconv)] at hwrap
        exact hover ⟨not_le.mp hconv,hwrap⟩
      have hmod : (ms.toNat*100+999) % 2^32+2^32 ≤ ms.toNat*100+999 := by omega
      have hshort : (ms.toNat*100+999) % 2^32/1000 < ticksFor ms := by
        rw [hneed]
        generalize ms.toNat*100+999 = x at hmod
        omega
      apply early_after _ hshort hs
      apply UInt32.toNat_inj.mp
      rw [htarget,UInt32.toNat_add,UInt32.toNat_ofNat',Nat.add_mod_mod]
    · -- the counter has
      apply early_at_once _ _ hs
      · rw [UInt32.le_iff_toNat_le,htarget]
        omega
      · rw [hneed]
        omega
  · rintro ⟨hconv,hadd⟩ steps hret
    have hstart : Counted ticks (ticksFor ms) (start ticks ms) := by
      refine ⟨?_,?_,?_⟩
      · rw [hneed]
        change (sleepTarget ticks ms).toNat = _
        rw [htarget,Nat.mod_eq_of_lt hconv,Nat.mod_eq_of_lt hadd]
      · intro _
        change ticks.toNat = (ticks.toNat+0) % 2^32
        omega
      · intro hr
        cases hr
    exact (hstart.run steps).done hret

/-- 10 ms asked for with the counter at its last value. -/
theorem sleep_returns_at_once : ¬ SleepsLongEnough 0xFFFFFFFF 10 := early_at_once (by decide) (by decide)

end VesperOS.SleepTimer
