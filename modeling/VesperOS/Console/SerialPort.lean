import VesperOS.Base.PortIO
import Mathlib.Data.Finset.Lattice.Fold

/-! # The serial port

`serial.c` against a UART that takes a byte when its holding register is empty and loses it otherwise. After a byte it is
busy for as long as it likes. The driver waits without a bound: `limit` is the number of status reads that one wait may
take, and the results hold for every limit that is large enough.
-/
namespace VesperOS.SerialPort
open PortIO

/-! ## The driver -/

def com1Data : ℕ := 0x3F8
def com1Ier : ℕ := 0x3F9
def com1Fcr : ℕ := 0x3FA
def com1Lcr : ℕ := 0x3FB
def com1Mcr : ℕ := 0x3FC
def com1Lsr : ℕ := 0x3FD
def com1Dll : ℕ := 0x3F8
def com1Dlh : ℕ := 0x3F9

def lsrTxEmpty : UInt8 := 0x20
def baudDivisor : UInt32 := 1

section Driver
variable {σ : Type} (P : Ports σ)

def serialInit (s : σ) : σ :=
  let s := P.outb com1Ier 0x00 s
  let s := P.outb com1Lcr 0x80 s
  let s := P.outb com1Dll (baudDivisor &&& 0xFF).toUInt8 s
  let s := P.outb com1Dlh (baudDivisor >>> 8).toUInt8 s
  let s := P.outb com1Lcr 0x03 s
  let s := P.outb com1Fcr 0xC7 s
  P.outb com1Mcr 0x0B s

def serialTxReady (v : UInt8) : Option Unit := if v &&& lsrTxEmpty ≠ 0 then some () else none

/-- `none`: still waiting after `limit` status reads. -/
def serialPutc (limit : ℕ) (c : UInt8) (s : σ) : Option σ :=
  let r := poll P com1Lsr serialTxReady limit s
  r.1.map fun _ => P.outb com1Data c r.2

/-- The string is the list of its bytes before the NUL. -/
def serialPuts (limit : ℕ) : List UInt8 → σ → Option σ
  | [], s => some s
  | c :: cs, s => do
    let s ← if c = 0x0A then serialPutc P limit 0x0D s else some s
    let s ← serialPutc P limit c s
    serialPuts limit cs s

/-- Messages from `serial_init` on. -/
def serialLog (limit : ℕ) (texts : List (List UInt8)) (s : σ) : Option σ :=
  texts.foldlM (fun s text => serialPuts P limit text s) (serialInit P s)

end Driver

/-! ## The device -/

/-- What the UART is free to do: for how many status reads it is busy after a byte, and the other status bits. -/
structure Timing where
  delay : ℕ → ℕ
  noise : ℕ → UInt8

structure Uart where
  ier : UInt8
  fcr : UInt8
  lcr : UInt8
  mcr : UInt8
  dll : UInt8
  dlh : UInt8
  busy : ℕ
  ticks : ℕ
  sent : List UInt8

namespace Uart
variable (E : Timing)

/-- The divisor latch is accessed instead of the data and interrupt registers. -/
def dlab (u : Uart) : Bool := u.lcr &&& 0x80 ≠ 0

def status (u : Uart) : UInt8 := (E.noise u.ticks &&& 0xDF) ||| if u.busy = 0 then lsrTxEmpty else 0

def inb (port : ℕ) (u : Uart) : UInt8 × Uart :=
  if port = com1Lsr then (u.status E,{ u with busy := u.busy-1, ticks := u.ticks+1 }) else (0xFF,u)

/-- A byte that comes too early is lost. -/
def transmit (v : UInt8) (u : Uart) : Uart :=
  if u.busy = 0 then { u with sent := u.sent++[v], busy := E.delay u.sent.length } else u

def outb (port : ℕ) (v : UInt8) (u : Uart) : Uart :=
  if port = com1Data then if u.dlab then { u with dll := v } else u.transmit E v
  else if port = com1Ier then if u.dlab then { u with dlh := v } else { u with ier := v }
  else if port = com1Fcr then { u with fcr := v }
  else if port = com1Lcr then { u with lcr := v }
  else if port = com1Mcr then { u with mcr := v }
  else u

def ports : Ports Uart := ⟨inb E,outb E,fun _ u => (0xFFFF,u),fun _ _ u => u⟩

/-- 115200 baud, eight data bits, and the latch closed. -/
structure Configured (u : Uart) : Prop where
  lcr : u.lcr = 0x03
  divisor : u.dll.toNat+2^8*u.dlh.toNat = 1
  fcr : u.fcr = 0xC7
  mcr : u.mcr = 0x0B

end Uart

/-! ## Bytes on the line -/

/-- LF is sent as CR LF. -/
def crlf (text : List UInt8) : List UInt8 := text.flatMap fun c => if c = 0x0A then [0x0D,c] else [c]

open Uart
variable {E : Timing}

theorem latch_open (v : Uart) : ({ v with lcr := 0x80 } : Uart).dlab = true := by
  change decide ((0x80 : UInt8) &&& 0x80 ≠ 0) = true
  decide

theorem outb_dll {v : Uart} (h : v.dlab = true) (b : UInt8) : (ports E).outb com1Dll b v = { v with dll := b } := by
  simp [ports,outb,com1Dll,com1Data,h]

theorem outb_dlh {v : Uart} (h : v.dlab = true) (b : UInt8) : (ports E).outb com1Dlh b v = { v with dlh := b } := by
  simp [ports,outb,com1Dlh,com1Data,com1Ier,h]

/-- With the latch open from the start, the first write of `serial_init` goes to the divisor and the interrupt register
is never written. -/
theorem serialInit_eq (u : Uart) : serialInit (ports E) u =
    { u with ier := if u.dlab then u.ier else 0, fcr := 0xC7, lcr := 0x03, mcr := 0x0B, dll := 1, dlh := 0 } := by
  have hlow : (baudDivisor &&& 0xFF).toUInt8 = 1 := by decide
  have hhigh : (baudDivisor >>> 8).toUInt8 = 0 := by decide
  have hfirst : (ports E).outb com1Ier 0x00 u = if u.dlab then { u with dlh := 0 } else { u with ier := 0 } := rfl
  have hlatch (v : Uart) : (ports E).outb com1Dlh 0 ((ports E).outb com1Dll 1 ((ports E).outb com1Lcr 0x80 v)) =
      { v with lcr := 0x80, dll := 1, dlh := 0 } := by
    have hlcr : (ports E).outb com1Lcr 0x80 v = { v with lcr := 0x80 } := rfl
    rw [hlcr,outb_dll (latch_open v),outb_dlh (latch_open { v with dll := 1 })]
  unfold serialInit
  simp only [hlow,hhigh,hlatch,hfirst]
  cases u.dlab <;> rfl

theorem status_waits {u : Uart} (h : 0 < u.busy) : serialTxReady (u.status E) = none := by
  have hmask : (0xDF : UInt8) &&& lsrTxEmpty = 0 := by decide
  have hbit : u.status E &&& lsrTxEmpty = 0 := by
    rw [status,if_neg (Nat.pos_iff_ne_zero.mp h),UInt8.or_zero,UInt8.and_assoc,hmask,UInt8.and_zero]
  exact if_neg (not_not.mpr hbit)

theorem status_ready {u : Uart} (h : u.busy = 0) : serialTxReady (u.status E) = some () := by
  have hmask : (0xDF : UInt8) &&& lsrTxEmpty = 0 := by decide
  have hbit : u.status E &&& lsrTxEmpty = lsrTxEmpty := by
    rw [status,if_pos h,or_and_distrib,UInt8.and_assoc,hmask,UInt8.and_zero,UInt8.zero_or,UInt8.and_self]
  refine if_pos ?_
  rw [hbit]
  decide

/-- A wait that is long enough ends, and the byte is on the line. -/
theorem serialPutc_spec {u : Uart} (hu : u.Configured) {limit : ℕ} (hl : u.busy < limit) (c : UInt8) :
    ∃ u', serialPutc (ports E) limit c u = some u' ∧ u'.Configured ∧ u'.ier = u.ier ∧ u'.sent = u.sent++[c] ∧
      u'.busy = E.delay u.sent.length := by
  have hpoll := poll_spec (P := ports E) (n := com1Lsr) (f := serialTxReady)
    (I := fun v => v.Configured ∧ v.ier = u.ier ∧ v.sent = u.sent)
    (Q := fun v => (v.Configured ∧ v.ier = u.ier ∧ v.sent = u.sent) ∧ v.busy = 0) (r := busy) (a := ())
    ?_ ?_ ⟨hu,rfl,rfl⟩ hl
  · obtain ⟨hsome,⟨hv,hier,hsent⟩,hbusy⟩ := hpoll
    generalize hr : poll (ports E) com1Lsr serialTxReady limit u = r at hsome hv hier hsent hbusy
    have hdlab : r.2.dlab = false := by rw [dlab,hv.lcr]; decide
    have hout : (ports E).outb com1Data c r.2 = { r.2 with sent := u.sent++[c], busy := E.delay u.sent.length } := by
      simp [ports,outb,transmit,hdlab,hbusy,hsent]
    refine ⟨{ r.2 with sent := u.sent++[c], busy := E.delay u.sent.length },?_,
      ⟨hv.lcr,hv.divisor,hv.fcr,hv.mcr⟩,hier,rfl,rfl⟩
    unfold serialPutc
    rw [hr]
    dsimp only
    rw [hsome,Option.map_some,hout]
  · rintro v ⟨hv,hier,hsent⟩ hpos
    exact ⟨status_waits hpos,⟨⟨hv.lcr,hv.divisor,hv.fcr,hv.mcr⟩,hier,hsent⟩,Nat.sub_add_cancel hpos⟩
  · rintro v ⟨hv,hier,hsent⟩ h0
    refine ⟨status_ready h0,⟨⟨hv.lcr,hv.divisor,hv.fcr,hv.mcr⟩,hier,hsent⟩,?_⟩
    change v.busy-1 = 0
    rw [h0]

/-- Every delay up to the last byte of the text is shorter than a wait. -/
theorem serialPuts_spec {limit : ℕ} (text : List UInt8) {u : Uart} (hu : u.Configured) (hb : u.busy < limit)
    (hd : ∀ i < u.sent.length+(crlf text).length, E.delay i < limit) :
    ∃ u', serialPuts (ports E) limit text u = some u' ∧ u'.Configured ∧ u'.ier = u.ier ∧ u'.sent = u.sent++crlf text ∧
      u'.busy < limit := by
  induction text generalizing u with
  | nil => exact ⟨u,rfl,hu,rfl,(List.append_nil _).symm,hb⟩
  | cons c cs ih =>
    by_cases hc : c = 0x0A
    · have hcr : crlf (c :: cs) = 0x0D :: c :: crlf cs := by simp [crlf,hc]
      rw [hcr,List.length_cons,List.length_cons] at hd
      obtain ⟨v,hv,hvc,hvi,hvs,hvb⟩ := serialPutc_spec (E := E) hu hb 0x0D
      obtain ⟨w,hw,hwc,hwi,hws,hwb⟩ := serialPutc_spec (E := E) hvc (by rw [hvb]; exact hd _ (by omega)) c
      have hlen : w.sent.length = u.sent.length+2 := by simp [hws,hvs]
      have hvlen : v.sent.length = u.sent.length+1 := by simp [hvs]
      obtain ⟨u',hu',hcfg,hier,hsent,hbusy⟩ := ih hwc (by rw [hwb,hvlen]; exact hd _ (by omega))
        (fun i hi => hd i (by omega))
      refine ⟨u',?_,hcfg,hier.trans (hwi.trans hvi),?_,hbusy⟩
      · rw [serialPuts,if_pos hc,hv]
        change (serialPutc (ports E) limit c v).bind _ = some u'
        rw [hw]
        exact hu'
      · rw [hsent,hws,hvs,hcr]
        simp
    · have hone : crlf (c :: cs) = c :: crlf cs := by simp [crlf,hc]
      rw [hone,List.length_cons] at hd
      obtain ⟨v,hv,hvc,hvi,hvs,hvb⟩ := serialPutc_spec (E := E) hu hb c
      have hvlen : v.sent.length = u.sent.length+1 := by simp [hvs]
      obtain ⟨u',hu',hcfg,hier,hsent,hbusy⟩ := ih hvc (by rw [hvb]; exact hd _ (by omega)) (fun i hi => hd i (by omega))
      refine ⟨u',?_,hcfg,hier.trans hvi,?_,hbusy⟩
      · rw [serialPuts,if_neg hc]
        change (serialPutc (ports E) limit c u).bind _ = some u'
        rw [hv]
        exact hu'
      · rw [hsent,hvs,hone]
        simp

theorem serialTexts_spec {limit : ℕ} (texts : List (List UInt8)) {u : Uart} (hu : u.Configured) (hb : u.busy < limit)
    (hd : ∀ i < u.sent.length+(texts.flatMap crlf).length, E.delay i < limit) :
    ∃ u', texts.foldlM (fun s text => serialPuts (ports E) limit text s) u = some u' ∧ u'.Configured ∧ u'.ier = u.ier ∧
      u'.sent = u.sent++texts.flatMap crlf := by
  induction texts generalizing u with
  | nil => exact ⟨u,rfl,hu,rfl,(List.append_nil _).symm⟩
  | cons text texts ih =>
    rw [List.flatMap_cons,List.length_append] at hd
    obtain ⟨v,hv,hvc,hvi,hvs,hvb⟩ := serialPuts_spec (E := E) text hu hb (fun i hi => hd i (by omega))
    have hlen : v.sent.length = u.sent.length+(crlf text).length := by rw [hvs,List.length_append]
    obtain ⟨u',hu',hcfg,hier,hsent⟩ := ih hvc hvb (fun i hi => hd i (by omega))
    refine ⟨u',?_,hcfg,hier.trans hvi,?_⟩
    · rw [List.foldlM_cons,hv]
      exact hu'
    · rw [hsent,hvs,List.flatMap_cons,List.append_assoc]

/-- Whatever state the UART was in and however long it is busy after each byte, the messages are on the line, in order
and complete. -/
theorem serial_lossless (E : Timing) (u : Uart) (texts : List (List UInt8)) : ∃ bound, ∀ limit ≥ bound,
    ∃ u', serialLog (ports E) limit texts u = some u' ∧ u'.Configured ∧ u'.sent = u.sent++texts.flatMap crlf ∧
      (u.dlab = false → u'.ier = 0) := by
  obtain ⟨n,hn⟩ : ∃ n, n = u.sent.length+(texts.flatMap crlf).length := ⟨_,rfl⟩
  refine ⟨(Finset.range n).sup E.delay+u.busy+1,?_⟩
  intro limit hlimit
  have hd : ∀ i < n, E.delay i < limit := by
    intro i hi
    have hle := Finset.le_sup (f := E.delay) (Finset.mem_range.mpr hi)
    omega
  have hinit := serialInit_eq (E := E) u
  have hcfg : (serialInit (ports E) u).Configured := by
    rw [hinit]
    exact ⟨rfl,rfl,rfl,rfl⟩
  have hsent : (serialInit (ports E) u).sent = u.sent := by rw [hinit]
  have hbusy : (serialInit (ports E) u).busy = u.busy := by rw [hinit]
  obtain ⟨u',hlog,hcfg',hier,hline⟩ := serialTexts_spec (E := E) texts hcfg
    (show (serialInit (ports E) u).busy < limit by rw [hbusy]; omega)
    (by rw [hsent,← hn]; exact hd)
  refine ⟨u',hlog,hcfg',by rw [hline,hsent],?_⟩
  intro hopen
  rw [hier,hinit]
  exact if_neg (by rw [hopen]; decide)

end VesperOS.SerialPort
