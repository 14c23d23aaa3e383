import Mathlib.Data.Nat.Notation
import Mathlib.Data.Nat.Basic
import Mathlib.Data.List.Basic
import Mathlib.Tactic.Common

/-! # The ATA driver

`ata_wait_not_busy`, `ata_wait_drq` and `ata_write_sectors` of `ata.c` against an
arbitrary stream of status values. A call is described by its result, the number of
status values it has consumed and the port accesses it made, in order. The status
port and the alternate status port show the same register, so both take their
values from one stream.
-/
namespace VesperOS.AtaDriver

def ataDriveHead : ℕ := 0x1F6
def ataSectCount : ℕ := 0x1F2
def ataLbaLow : ℕ := 0x1F3
def ataLbaMid : ℕ := 0x1F4
def ataLbaHigh : ℕ := 0x1F5
def ataCommand : ℕ := 0x1F7
def ataCmdWrite : UInt8 := 0x30

def bsy (s : UInt8) : Bool := s &&& 0x80 ≠ 0
def drq (s : UInt8) : Bool := s &&& 0x08 ≠ 0
def err (s : UInt8) : Bool := s &&& 0x01 ≠ 0

inductive Event where
  | status (v : UInt8)
  | altStatus (v : UInt8)
  | out (port : ℕ) (v : UInt8)
  | word (w : UInt16)
  deriving DecidableEq

structure Reply where
  ok : Bool
  reads : ℕ
  events : List Event

def Reply.after (es : List Event) (r : Reply) : Reply := { r with events := es++r.events }

@[simp] theorem Reply.after_ok (es : List Event) (r : Reply) : (r.after es).ok = r.ok := rfl
@[simp] theorem Reply.after_reads (es : List Event) (r : Reply) : (r.after es).reads = r.reads := rfl
@[simp] theorem Reply.after_events (es : List Event) (r : Reply) : (r.after es).events = es++r.events := rfl

/-- The bound of both polling loops. -/
def pollLimit : ℕ := 0x100000

section Driver
variable (st : ℕ → UInt8)

/-- `ata_wait_not_busy` with this many polls left, after `n` status reads. -/
def ataWaitNotBusy : ℕ → ℕ → Reply
  | 0, n => ⟨false,n,[]⟩
  | k+1, n =>
    if bsy (st n) then (ataWaitNotBusy k (n+1)).after [.status (st n)]
    else ⟨true,n+1,[.status (st n)]⟩

def ataWaitDrq : ℕ → ℕ → Reply
  | 0, n => ⟨false,n,[]⟩
  | k+1, n =>
    if err (st n) then ⟨false,n+1,[.status (st n)]⟩
    else if bsy (st n) = false ∧ drq (st n) = true then ⟨true,n+1,[.status (st n)]⟩
    else (ataWaitDrq k (n+1)).after [.status (st n)]

def ataDelay400ns (n : ℕ) : List Event := (List.range 4).map (fun i => .altStatus (st (n+i)))

/-- The `i`th group of 256 words of the buffer. -/
def sectorWords (buf : ℕ → UInt16) (i : ℕ) : List Event := (List.range 256).map (fun j => .word (buf (256*i+j)))

/-- The sector loop, from sector `i` of the buffer on. -/
def writeLoop (buf : ℕ → UInt16) : ℕ → ℕ → ℕ → Reply
  | 0, _, n => ⟨true,n,[]⟩
  | k+1, i, n =>
    let w := ataWaitDrq st pollLimit n
    if w.ok then
      (writeLoop buf k (i+1) (w.reads+4)).after (w.events++sectorWords buf i++ataDelay400ns st w.reads)
    else w

/-- The register writes that issue the command. -/
def commandEvents (lba : UInt32) (count : UInt8) : List Event :=
  [.out ataDriveHead ((0xE0 : UInt32) ||| ((lba >>> 24) &&& 0x0F)).toUInt8,.out ataSectCount count,
    .out ataLbaLow (lba &&& 0xFF).toUInt8,.out ataLbaMid ((lba >>> 8) &&& 0xFF).toUInt8,
    .out ataLbaHigh ((lba >>> 16) &&& 0xFF).toUInt8,.out ataCommand ataCmdWrite]

def ataWriteSectors (lba : UInt32) (count : UInt8) (buf : ℕ → UInt16) : Reply :=
  if count = 0 then ⟨true,0,[]⟩
  else
    let w := ataWaitNotBusy st pollLimit 0
    if w.ok then (writeLoop st buf count.toNat 0 w.reads).after (w.events++commandEvents lba count)
    else w

end Driver

/-! ## What a log shows about a sector -/

def isWord : Event → Bool
  | .word _ => true
  | _ => false

/-- The events after the first `n` words. -/
def afterWords : ℕ → List Event → List Event
  | 0, es => es
  | _+1, [] => []
  | n+1, e :: es => if isWord e then afterWords n es else afterWords (n+1) es

def cleanStatus : Event → Bool
  | .status v => bsy v = false ∧ err v = false
  | _ => false

/-- After the 256th word of sector `s` the status register was read with BSY and ERR clear. -/
def Confirmed (log : List Event) (s : ℕ) : Prop := ∃ e ∈ afterWords (256*(s+1)) log, cleanStatus e = true

theorem afterWords_quiet {es : List Event} (h : ∀ e ∈ es, isWord e = false) (n : ℕ) (rest : List Event) :
    afterWords (n+1) (es++rest) = afterWords (n+1) rest := by
  induction es with
  | nil => rfl
  | cons e es ih =>
    have he := h e List.mem_cons_self
    have htail := ih (fun e' he' => h e' (List.mem_cons_of_mem _ he'))
    simpa [afterWords,he] using htail

theorem afterWords_words {es : List Event} (h : ∀ e ∈ es, isWord e = true) (n : ℕ) (rest : List Event) :
    afterWords (es.length+n) (es++rest) = afterWords n rest := by
  induction es with
  | nil => simp
  | cons e es ih =>
    have he := h e List.mem_cons_self
    have htail := ih (fun e' he' => h e' (List.mem_cons_of_mem _ he'))
    have hlen : (e :: es).length+n = (es.length+n)+1 := by
      rw [List.length_cons]
      omega
    rw [hlen]
    simpa [afterWords,he] using htail

/-! ## The polling loops -/

/-- The poll that starts after `n` reads finds the drive idle with read `m`. -/
def IdleAt (st : ℕ → UInt8) (limit n m : ℕ) : Prop :=
  n ≤ m ∧ m < n+limit ∧ bsy (st m) = false ∧ ∀ i, n ≤ i → i < m → bsy (st i) = true

/-- The poll that starts after `n` reads finds the drive ready for data with read `m`. -/
def ReadyAt (st : ℕ → UInt8) (limit n m : ℕ) : Prop :=
  n ≤ m ∧ m < n+limit ∧ err (st m) = false ∧ bsy (st m) = false ∧ drq (st m) = true ∧
    ∀ i, n ≤ i → i < m → err (st i) = false ∧ (bsy (st i) = true ∨ drq (st i) = false)

section Polls
variable {st : ℕ → UInt8}

theorem ataWaitNotBusy_quiet (limit n : ℕ) : ∀ e ∈ (ataWaitNotBusy st limit n).events, isWord e = false := by
  induction limit generalizing n with
  | zero => simp [ataWaitNotBusy]
  | succ k ih =>
    unfold ataWaitNotBusy
    split
    · simpa [isWord] using ih (n+1)
    · simp [isWord]

theorem ataWaitDrq_quiet (limit n : ℕ) : ∀ e ∈ (ataWaitDrq st limit n).events, isWord e = false := by
  induction limit generalizing n with
  | zero => simp [ataWaitDrq]
  | succ k ih =>
    unfold ataWaitDrq
    split
    · simp [isWord]
    · split
      · simp [isWord]
      · simpa [isWord] using ih (n+1)

theorem ataWaitNotBusy_ok {limit n : ℕ} (h : (ataWaitNotBusy st limit n).ok = true) :
    ∃ m, IdleAt st limit n m ∧ (ataWaitNotBusy st limit n).reads = m+1 := by
  induction limit generalizing n with
  | zero => simp [ataWaitNotBusy] at h
  | succ k ih =>
    cases hb : bsy (st n) with
    | false =>
      refine ⟨n,⟨le_refl n,by omega,hb,?_⟩,by simp [ataWaitNotBusy,hb]⟩
      intro i hi hin
      omega
    | true =>
      have hstep : ataWaitNotBusy st (k+1) n = (ataWaitNotBusy st k (n+1)).after [.status (st n)] := by
        simp [ataWaitNotBusy,hb]
      rw [hstep] at h ⊢
      obtain ⟨m,⟨hnm,hlt,hidle,hbefore⟩,hreads⟩ := ih h
      refine ⟨m,⟨by omega,by omega,hidle,?_⟩,hreads⟩
      intro i hi him
      rcases Nat.eq_or_lt_of_le hi with rfl | hi
      · exact hb
      · exact hbefore i hi him

theorem ataWaitNotBusy_idle {limit n m : ℕ} (h : IdleAt st limit n m) :
    (ataWaitNotBusy st limit n).ok = true ∧ (ataWaitNotBusy st limit n).reads = m+1 := by
  obtain ⟨hnm,hlt,hidle,hbefore⟩ := h
  induction limit generalizing n with
  | zero => omega
  | succ k ih =>
    rcases Nat.eq_or_lt_of_le hnm with rfl | hnm
    · simp [ataWaitNotBusy,hidle]
    · have hb := hbefore n (le_refl n) hnm
      have htail := ih (n := n+1) hnm (by omega) (fun i hi him => hbefore i (by omega) him)
      simpa [ataWaitNotBusy,hb] using htail

theorem ataWaitDrq_ok {limit n : ℕ} (h : (ataWaitDrq st limit n).ok = true) :
    ∃ m, ReadyAt st limit n m ∧ (ataWaitDrq st limit n).reads = m+1 ∧
      .status (st m) ∈ (ataWaitDrq st limit n).events := by
  induction limit generalizing n with
  | zero => simp [ataWaitDrq] at h
  | succ k ih =>
    cases he : err (st n) with
    | true => simp [ataWaitDrq,he] at h
    | false =>
      by_cases hr : bsy (st n) = false ∧ drq (st n) = true
      · refine ⟨n,⟨le_refl n,by omega,he,hr.1,hr.2,?_⟩,by simp [ataWaitDrq,he,hr],by simp [ataWaitDrq,he,hr]⟩
        intro i hi hin
        omega
      · have hstep : ataWaitDrq st (k+1) n = (ataWaitDrq st k (n+1)).after [.status (st n)] := by
          simp [ataWaitDrq,he,hr]
        rw [hstep] at h ⊢
        obtain ⟨m,⟨hnm,hlt,hm,hbusy,hdrq,hbefore⟩,hreads,hmem⟩ := ih h
        refine ⟨m,⟨by omega,by omega,hm,hbusy,hdrq,?_⟩,hreads,List.mem_append_right _ hmem⟩
        intro i hi him
        rcases Nat.eq_or_lt_of_le hi with rfl | hi
        · refine ⟨he,?_⟩
          rwa [not_and_or,Bool.not_eq_false,Bool.not_eq_true] at hr
        · exact hbefore i hi him

theorem ataWaitDrq_ready {limit n m : ℕ} (h : ReadyAt st limit n m) :
    (ataWaitDrq st limit n).ok = true ∧ (ataWaitDrq st limit n).reads = m+1 := by
  obtain ⟨hnm,hlt,he,hbusy,hdrq,hbefore⟩ := h
  induction limit generalizing n with
  | zero => omega
  | succ k ih =>
    rcases Nat.eq_or_lt_of_le hnm with rfl | hnm
    · simp [ataWaitDrq,he,hbusy,hdrq]
    · obtain ⟨hen,hnot⟩ := hbefore n (le_refl n) hnm
      have hr : ¬ (bsy (st n) = false ∧ drq (st n) = true) := by
        rw [not_and_or,Bool.not_eq_false,Bool.not_eq_true]
        exact hnot
      have htail := ih (n := n+1) hnm (by omega) (fun i hi him => hbefore i (by omega) him)
      simpa [ataWaitDrq,hen,hr] using htail

end Polls

/-! ## Served requests -/

/-- The drive asks for the data of `k` more sectors, each time within the limit and without reporting an
error; the delay after a sector takes four values. -/
def Serves (st : ℕ → UInt8) : ℕ → ℕ → Prop
  | 0, _ => True
  | k+1, n => ∃ m, ReadyAt st pollLimit n m ∧ Serves st k (m+5)

/-- The status values make every wait of a write of `count` sectors succeed. -/
def Accepts (st : ℕ → UInt8) (count : ℕ) : Prop := ∃ m, IdleAt st pollLimit 0 m ∧ Serves st count (m+1)

section Loop
variable {st : ℕ → UInt8} {buf : ℕ → UInt16}

theorem writeLoop_ok (k i n : ℕ) : (writeLoop st buf k i n).ok = true ↔ Serves st k n := by
  induction k generalizing i n with
  | zero => simp [writeLoop,Serves]
  | succ k ih =>
    constructor
    · intro h
      have hw : (ataWaitDrq st pollLimit n).ok = true := by
        by_contra hno
        simp [writeLoop,hno] at h
      obtain ⟨m,hm,hreads,-⟩ := ataWaitDrq_ok hw
      refine ⟨m,hm,?_⟩
      simp only [writeLoop,hw,if_true,Reply.after_ok,hreads] at h
      exact (ih (i+1) (m+1+4)).mp h
    · rintro ⟨m,hm,hrest⟩
      obtain ⟨hw,hreads⟩ := ataWaitDrq_ready hm
      simp only [writeLoop,hw,if_true,Reply.after_ok,hreads]
      exact (ih (i+1) (m+1+4)).mpr hrest

theorem ataWriteSectors_ok (lba : UInt32) {count : UInt8} (hc : count ≠ 0) :
    (ataWriteSectors st lba count buf).ok = true ↔ Accepts st count.toNat := by
  constructor
  · intro h
    have hw : (ataWaitNotBusy st pollLimit 0).ok = true := by
      by_contra hno
      simp [ataWriteSectors,hc,hno] at h
    obtain ⟨m,hm,hreads⟩ := ataWaitNotBusy_ok hw
    refine ⟨m,hm,?_⟩
    simp only [ataWriteSectors,hc,if_false,hw,if_true,Reply.after_ok,hreads] at h
    exact (writeLoop_ok _ _ _).mp h
  · rintro ⟨m,hm,hserves⟩
    obtain ⟨hw,hreads⟩ := ataWaitNotBusy_idle hm
    simp only [ataWriteSectors,hc,if_false,hw,if_true,Reply.after_ok,hreads]
    exact (writeLoop_ok _ _ _).mpr hserves

theorem sectorWords_word (i : ℕ) : ∀ e ∈ sectorWords buf i, isWord e = true := by
  intro e he
  obtain ⟨j,-,rfl⟩ := List.mem_map.mp he
  rfl

theorem ataDelay400ns_quiet (n : ℕ) : ∀ e ∈ ataDelay400ns st n, isWord e = false := by
  intro e he
  obtain ⟨i,-,rfl⟩ := List.mem_map.mp he
  rfl

theorem ataDelay400ns_unclean (n : ℕ) : ∀ e ∈ ataDelay400ns st n, cleanStatus e = false := by
  intro e he
  obtain ⟨i,-,rfl⟩ := List.mem_map.mp he
  rfl

theorem commandEvents_quiet (lba : UInt32) (count : UInt8) : ∀ e ∈ commandEvents lba count, isWord e = false := by
  simp [commandEvents,isWord]

/-- A sector's wait and its words, skipped. -/
theorem afterWords_sector (n c : ℕ) (i : ℕ) (rest : List Event) :
    afterWords (256*(c+1)) ((ataWaitDrq st pollLimit n).events++sectorWords buf i++rest) =
      afterWords (256*c) rest := by
  have hlen : (sectorWords buf i).length = 256 := by simp [sectorWords]
  have hcount : 256*(c+1) = 255+256*c+1 := by omega
  rw [List.append_assoc,hcount,afterWords_quiet (ataWaitDrq_quiet pollLimit n)]
  have hsplit : 255+256*c+1 = (sectorWords buf i).length+256*c := by omega
  rw [hsplit,afterWords_words (sectorWords_word i)]

theorem afterWords_delay (c : ℕ) (n : ℕ) (rest : List Event) :
    afterWords (256*(c+1)) (ataDelay400ns st n++rest) = afterWords (256*(c+1)) rest := by
  have hcount : 256*(c+1) = 255+256*c+1 := by omega
  rw [hcount,afterWords_quiet (ataDelay400ns_quiet n)]

/-- A sector that another one follows is confirmed: the wait before the next sector reads the status until BSY
and ERR are clear. -/
theorem writeLoop_confirms {k i n s : ℕ} (h : (writeLoop st buf k i n).ok = true) (hs : s+1 < k) :
    Confirmed (writeLoop st buf k i n).events s := by
  induction k generalizing i n s with
  | zero => omega
  | succ k ih =>
    have hserves := (writeLoop_ok _ _ _).mp h
    obtain ⟨m,hm,hrest⟩ := hserves
    obtain ⟨hw,hreads⟩ := ataWaitDrq_ready hm
    have htail : (writeLoop st buf k (i+1) (m+5)).ok = true := (writeLoop_ok _ _ _).mpr hrest
    unfold Confirmed
    simp only [writeLoop,hw,if_true,Reply.after_events,hreads]
    rw [List.append_assoc _ (ataDelay400ns st (m+1)),afterWords_sector]
    cases s with
    | zero =>
      -- the first status read of the following sector's wait
      cases k with
      | zero => omega
      | succ k =>
        obtain ⟨m',hm',-⟩ := hrest
        obtain ⟨hw',-⟩ := ataWaitDrq_ready hm'
        obtain ⟨m'',⟨-,-,he,hb,-,-⟩,-,hmem⟩ := ataWaitDrq_ok hw'
        refine ⟨.status (st m''),?_,by simp [cleanStatus,he,hb]⟩
        simp only [Nat.mul_zero,afterWords]
        apply List.mem_append_right
        simp only [writeLoop,hw',if_true,Reply.after_events]
        apply List.mem_append_left
        apply List.mem_append_left
        exact List.mem_append_left _ hmem
    | succ s =>
      rw [afterWords_delay]
      exact ih htail (by omega)

/-- Nothing reads the status register after the last sector. -/
theorem writeLoop_last {k i n : ℕ} (h : Serves st (k+1) n) : ¬ Confirmed (writeLoop st buf (k+1) i n).events k := by
  induction k generalizing i n with
  | zero =>
    obtain ⟨m,hm,-⟩ := h
    obtain ⟨hw,hreads⟩ := ataWaitDrq_ready hm
    rintro ⟨e,he,hclean⟩
    simp only [writeLoop,hw,if_true,Reply.after_events,hreads,List.append_nil] at he
    rw [afterWords_sector] at he
    rw [ataDelay400ns_unclean (m+1) e he] at hclean
    exact Bool.noConfusion hclean
  | succ k ih =>
    obtain ⟨m,hm,hrest⟩ := h
    obtain ⟨hw,hreads⟩ := ataWaitDrq_ready hm
    have htail := ih (i := i+1) hrest
    intro hc
    apply htail
    unfold Confirmed at hc ⊢
    rw [writeLoop] at hc
    simp only [hw,if_true,Reply.after_events,hreads] at hc
    rw [List.append_assoc _ (ataDelay400ns st (m+1)),afterWords_sector,afterWords_delay] at hc
    exact hc

/-- The log of an accepted request is that of the sector loop, for every sector. -/
theorem confirmed_loop {lba : UInt32} {count : UInt8} (hc : count ≠ 0) {m : ℕ} (hm : IdleAt st pollLimit 0 m) (s : ℕ) :
    Confirmed (ataWriteSectors st lba count buf).events s ↔
      Confirmed (writeLoop st buf count.toNat 0 (m+1)).events s := by
  obtain ⟨hw,hreads⟩ := ataWaitNotBusy_idle hm
  unfold Confirmed
  simp only [ataWriteSectors,hc,if_false,hw,if_true,Reply.after_events,hreads]
  have hcount : 256*(s+1) = 255+256*s+1 := by omega
  rw [List.append_assoc,hcount,afterWords_quiet (ataWaitNotBusy_quiet pollLimit 0),
    afterWords_quiet (commandEvents_quiet lba count)]

theorem ataWriteSectors_confirms {lba : UInt32} {count : UInt8} (h : (ataWriteSectors st lba count buf).ok = true)
    {s : ℕ} (hs : s+1 < count.toNat) : Confirmed (ataWriteSectors st lba count buf).events s := by
  have hc : count ≠ 0 := by
    rintro rfl
    simp at hs
  obtain ⟨m,hm,hserves⟩ := (ataWriteSectors_ok lba hc).mp h
  rw [confirmed_loop hc hm]
  exact writeLoop_confirms ((writeLoop_ok _ _ _).mpr hserves) hs

/-- A write that reports success leaves its last sector unconfirmed, so every sector is confirmed only when the
drive does not accept the request. -/
theorem write_confirmed_iff (st : ℕ → UInt8) (lba : UInt32) (count : UInt8) (buf : ℕ → UInt16) (hc : count ≠ 0) :
    ((ataWriteSectors st lba count buf).ok = true →
      ∀ s < count.toNat, Confirmed (ataWriteSectors st lba count buf).events s) ↔ ¬ Accepts st count.toNat := by
  constructor
  · intro h hacc
    obtain ⟨m,hm,hserves⟩ := hacc
    have hok := (@ataWriteSectors_ok _ buf lba _ hc).mpr ⟨m,hm,hserves⟩
    obtain ⟨k,hk⟩ : ∃ k, count.toNat = k+1 := by
      apply Nat.exists_eq_succ_of_ne_zero
      intro h0
      exact hc (UInt8.toNat_inj.mp (by simpa using h0))
    have hlast := (@confirmed_loop _ _ lba _ hc _ hm k).mp (h hok k (by omega))
    rw [hk] at hlast hserves
    exact writeLoop_last hserves hlast
  · intro hno hok
    exact absurd ((ataWriteSectors_ok lba hc).mp hok) hno

end Loop

theorem write_confirmed_busy : (1 : UInt8) ≠ 0 ∧ ¬ Accepts (fun _ => 0x80) (1 : UInt8).toNat ∧
    ((ataWriteSectors (fun _ => 0x80) 138 1 (fun _ => 0)).ok = true →
      ∀ s < (1 : UInt8).toNat, Confirmed (ataWriteSectors (fun _ => 0x80) 138 1 (fun _ => 0)).events s) := by
  have hbusy : ¬ Accepts (fun _ => 0x80) (1 : UInt8).toNat := by
    rintro ⟨m,⟨-,-,hm,-⟩,-⟩
    exact absurd (show bsy 0x80 = false from hm) (by decide)
  exact ⟨by decide,hbusy,(write_confirmed_iff (fun _ => 0x80) 138 1 (fun _ => 0) (by decide)).mpr hbusy⟩

/-- The drive takes the data of one sector and reports an error in every later status value. -/
def lateError (n : ℕ) : UInt8 := if n < 2 then 0x58 else 0x51

theorem write_unconfirmed : (ataWriteSectors lateError 138 1 (fun _ => 0)).ok = true ∧
    ¬ ∀ s < (1 : UInt8).toNat, Confirmed (ataWriteSectors lateError 138 1 (fun _ => 0)).events s := by
  have hlog : (ataWriteSectors lateError 138 1 (fun _ => 0)).ok = true ∧
      (afterWords 256 (ataWriteSectors lateError 138 1 (fun _ => 0)).events).any cleanStatus = false := by
    decide +kernel
  refine ⟨hlog.1,?_⟩
  intro h
  obtain ⟨e,he,hclean⟩ := h 0 (by decide)
  have hnone := List.any_eq_false.mp hlog.2 e he
  exact hnone hclean

end VesperOS.AtaDriver
