import VesperOS.Process.ContextSwitch

/-! # Progress of the round robin

A slot that waits READY moves one or more places closer to the front of the
round-robin order with every context switch, whatever happens to the other slots
in between: the order depends only on where `current_process` stands.
-/
namespace VesperOS.RoundRobin
open Paging ProcessTable SpaceLifecycle Scheduler ContextSwitch

/-- `(index(p) - index(current_process) - 1) mod MAX_PROCESSES`. -/
def distance (p c : Slot) : ℕ := (((p.val : ℤ)-c.val-1) % 16).toNat

theorem distance_eq (p c : Slot) : distance p c = (p-c-1).val := by
  revert p c
  decide

theorem distance_lt_slots (p c : Slot) : distance p c < 16 := by
  rw [distance_eq]
  exact (p-c-1).isLt

/-- A stretch of a run from `k` to `k'` in which `p` is READY and never selected, with the slots that are selected.
Between the calls of `process_yield` anything may change but `current_process` and that `p` is READY. -/
inductive Waits (K : KernelLayout) (p : Slot) (k : Kernel) : List Slot → Kernel → Prop
  | start : (k.table p).state = .ready → Waits K p k [] k
  | change {sel : List Slot} {k₁ k₂ : Kernel} : Waits K p k sel k₁ → k₂.current = k₁.current →
      (k₂.table p).state = .ready → Waits K p k sel k₂
  | call {sel : List Slot} {k₁ : Kernel} : Waits K p k sel k₁ → nextSlot k₁ ≠ p →
      Waits K p k (sel++[nextSlot k₁]) (processYield K k₁)

variable {K : KernelLayout} {p : Slot} {k k' : Kernel} {sel : List Slot}

theorem yield_ready (hp : (k.table p).state = .ready) (hne : nextSlot k ≠ p) :
    ((processYield K k).table p).state = .ready := by
  rw [processYield_state,if_neg (Ne.symm hne),if_neg,hp]
  rintro ⟨_,hr⟩
  rw [hp] at hr
  cases hr

/-- One call brings `p` closer unless it selects it. -/
theorem nextSlot_closer {c : Slot} (hc : k.current = some c) (hp : (k.table p).state = .ready) (hne : nextSlot k ≠ p) :
    distance p (nextSlot k) < distance p c := by
  obtain ⟨m,hnext,hm⟩ := nextSlot_distance hc hp
  rw [distance_eq,distance_eq,hnext]
  exact distance_lt hm (hnext ▸ hne)

theorem Waits.ready (h : Waits K p k sel k') : (k'.table p).state = .ready := by
  induction h with
  | start hp => exact hp
  | change _ _ hp => exact hp
  | call _ hne ih => exact yield_ready ih hne

/-- The last slot selected is the current one, and the distances fall from call to call. -/
theorem Waits.falls {c : Slot} (hc : k.current = some c) (h : Waits K p k sel k') :
    k'.current = some ((c :: sel).getLast (List.cons_ne_nil c sel)) ∧
      (c :: sel).Pairwise (fun a b => distance p b < distance p a) := by
  induction h with
  | start _ => exact ⟨hc,List.pairwise_singleton _ _⟩
  | change _ hcur _ ih => exact ⟨hcur.trans ih.1,ih.2⟩
  | @call sel k₁ hw hne ih =>
    obtain ⟨hlast,hpw⟩ := ih
    have hcloser := nextSlot_closer hlast hw.ready hne
    constructor
    · rw [processYield_current]
      simp
    · rw [← List.cons_append,List.pairwise_append]
      refine ⟨hpw,List.pairwise_singleton _ _,?_⟩
      intro a ha b hb
      obtain rfl := List.mem_singleton.mp hb
      -- every slot before the last one is farther away than it
      have hle : distance p ((c :: sel).getLast (List.cons_ne_nil c sel)) ≤ distance p a := by
        obtain ⟨init,hinit⟩ : ∃ init, c :: sel = init++[(c :: sel).getLast (List.cons_ne_nil c sel)] :=
          ⟨_,(List.dropLast_append_getLast (List.cons_ne_nil c sel)).symm⟩
        rw [hinit] at hpw ha
        rcases List.mem_append.mp ha with ha | ha
        · exact le_of_lt ((List.pairwise_append.mp hpw).2.2 a ha _ List.mem_cons_self)
        · rw [List.mem_singleton.mp ha]
      exact lt_of_lt_of_le hcloser hle

theorem length_le_of_falls (f : Slot → ℕ) {c : Slot} (hpw : (c :: sel).Pairwise (fun a b => f b < f a)) :
    sel.length ≤ f c := by
  induction sel generalizing c with
  | nil => exact Nat.zero_le _
  | cons d sel ih =>
    obtain ⟨hc,hrest⟩ := List.pairwise_cons.mp hpw
    have hlen := ih hrest
    have hd := hc d List.mem_cons_self
    rw [List.length_cons]
    omega

/-- While `p` waits READY the distance to it falls with every call. So no slot is selected twice, there are at most
15 such calls, and a sixteenth selects `p`. -/
theorem roundRobin_progress {c : Slot} (hc : k.current = some c) (h : Waits K p k sel k') :
    (c :: sel).Pairwise (fun a b => distance p b < distance p a) ∧ sel.Nodup ∧ sel.length < 16 ∧
      (sel.length = 15 → nextSlot k' = p) := by
  obtain ⟨-,hpw⟩ := h.falls hc
  have hshort : ∀ {sel' : List Slot} {k₁ : Kernel}, Waits K p k sel' k₁ → sel'.length < 16 := by
    intro sel' k₁ hw
    have hlen := length_le_of_falls (distance p) (hw.falls hc).2
    have hlt := distance_lt_slots p c
    omega
  refine ⟨hpw,?_,hshort h,?_⟩
  · apply (List.pairwise_cons.mp hpw).2.imp
    rintro a b hab rfl
    omega
  · intro hlen
    by_contra hne
    have hlonger := hshort (h.call hne)
    rw [List.length_append,List.length_singleton,hlen] at hlonger
    omega

/-- The idle thread runs and two others are READY. -/
def threeThreads : Kernel := Scheduler.run sampleLayout Exec.bootedKernel [.create,.create,.yield]

/-- The last of them waits while the other is selected, and is closer then. -/
theorem roundRobin_progress_threeThreads : threeThreads.current = some 0 ∧
    Waits sampleLayout 2 threeThreads [1] (processYield sampleLayout threeThreads) ∧ distance 2 1 < distance 2 0 := by
  have hcur : threeThreads.current = some 0 := by decide +kernel
  have hready : (threeThreads.table 2).state = .ready := by decide +kernel
  have hnext : nextSlot threeThreads = 1 := by decide +kernel
  have hwait := (Waits.start hready).call (K := sampleLayout) (by rw [hnext]; decide)
  rw [hnext,List.nil_append] at hwait
  have hfall := (roundRobin_progress hcur hwait).1
  exact ⟨hcur,hwait,(List.pairwise_cons.mp hfall).1 1 List.mem_cons_self⟩

end VesperOS.RoundRobin
