import Mathlib.Tactic

/-! # The real-time clock

`rtc_read` of `rtc.c` and `SYS_GETTIME`. The chip answers on two ports; its time registers
hold still during the call and the readings of status register A are arbitrary, save that
the update flag clears again and again. The four register formats are those of the chip:
BCD or binary, 24 hours or 12 hours with the PM marker.
-/
namespace VesperOS.Rtc

def regSecond : UInt8 := 0x00
def regMinute : UInt8 := 0x02
def regHour : UInt8 := 0x04
def regDay : UInt8 := 0x07
def regMonth : UInt8 := 0x08
def regYear : UInt8 := 0x09
def regStatusA : UInt8 := 0x0A
def regStatusB : UInt8 := 0x0B
def nmiDisable : UInt8 := 0x80

/-! ## The chip -/

structure Chip where
  regs : UInt8 → UInt8
  /-- The answers to the readings of status register A, in order. -/
  statusA : ℕ → UInt8

structure Cmos where
  index : UInt8
  polls : ℕ

/-- `outb` to the index port. -/
def outIndex (value : UInt8) (cmos : Cmos) : Cmos := { cmos with index := value }

/-- `inb` from the data port. Bit 7 of the index is the NMI gate and selects nothing. -/
def inData (chip : Chip) (cmos : Cmos) : UInt8 × Cmos :=
  let reg := cmos.index &&& 0x7F
  if reg = regStatusA then (chip.statusA cmos.polls,{ cmos with polls := cmos.polls+1 })
  else (chip.regs reg,cmos)

def cmosRead (chip : Chip) (reg : UInt8) (cmos : Cmos) : UInt8 × Cmos :=
  inData chip (outIndex (nmiDisable ||| reg) cmos)

/-! ## The driver -/

structure RtcTime where
  year : UInt16
  month : UInt8
  day : UInt8
  hour : UInt8
  minute : UInt8
  second : UInt8

def bcdToBin (bcd : UInt8) : UInt8 := ((bcd >>> 4) &&& 0x0F)*10+(bcd &&& 0x0F)

/-- The spin on the update flag. -/
def waitUpdate (chip : Chip) : ℕ → Cmos → Option Cmos
  | 0, _ => none
  | fuel+1, cmos =>
    let (status,cmos) := cmosRead chip regStatusA cmos
    if status &&& 0x80 ≠ 0 then waitUpdate chip fuel cmos else some cmos

def readRegisters (chip : Chip) (t : RtcTime) (cmos : Cmos) : RtcTime × Cmos :=
  let (x,cmos) := cmosRead chip regSecond cmos
  let t := { t with second := x }
  let (x,cmos) := cmosRead chip regMinute cmos
  let t := { t with minute := x }
  let (x,cmos) := cmosRead chip regHour cmos
  let t := { t with hour := x }
  let (x,cmos) := cmosRead chip regDay cmos
  let t := { t with day := x }
  let (x,cmos) := cmosRead chip regMonth cmos
  let t := { t with month := x }
  let (x,cmos) := cmosRead chip regYear cmos
  ({ t with year := x.toUInt16 },cmos)

def fromBcd (t : RtcTime) : RtcTime :=
  let t := { t with second := bcdToBin t.second }
  let t := { t with minute := bcdToBin t.minute }
  let t := { t with hour := bcdToBin t.hour }
  let t := { t with day := bcdToBin t.day }
  let t := { t with month := bcdToBin t.month }
  { t with year := (bcdToBin t.year.toUInt8).toUInt16 }

/-- The PM marker of the 12-hour mode. -/
def fromTwelve (statusB : UInt8) (t : RtcTime) : RtcTime :=
  if statusB &&& 0x02 = 0 ∧ t.hour &&& 0x80 ≠ 0 then { t with hour := ((t.hour &&& 0x7F)+12) % 24 } else t

def addCentury (t : RtcTime) : RtcTime := { t with year := t.year+(if t.year < 70 then 2000 else 1900) }

/-- The in-place conversions, in their order. -/
def convert (statusB : UInt8) (t : RtcTime) : RtcTime :=
  let t := if statusB &&& 0x04 = 0 then fromBcd t else t
  addCentury (fromTwelve statusB t)

def rtcRead (chip : Chip) (fuel : ℕ) (t : RtcTime) (cmos : Cmos) : Option (RtcTime × Cmos) :=
  (waitUpdate chip fuel cmos).map (fun cmos =>
    let (statusB,cmos) := cmosRead chip regStatusB cmos
    let (t,cmos) := readRegisters chip t cmos
    (convert statusB t,cmos))

/-- `SYS_GETTIME`: the value for EAX, from a record on the stack that holds anything. -/
def sysGettime (chip : Chip) (fuel : ℕ) (t : RtcTime) (cmos : Cmos) : Option (UInt32 × Cmos) :=
  (rtcRead chip fuel t cmos).map (fun r =>
    (r.1.hour.toUInt32*3600+r.1.minute.toUInt32*60+r.1.second.toUInt32,r.2))

/-! ## Dates and their encodings -/

def leap (year : ℕ) : Bool := year % 4 = 0 ∧ (year % 100 ≠ 0 ∨ year % 400 = 0)

def daysIn (year month : ℕ) : ℕ :=
  if month = 2 then if leap year then 29 else 28
  else if month = 4 ∨ month = 6 ∨ month = 9 ∨ month = 11 then 30
  else 31

/-- A date and time from 1970-01-01 00:00:00 to 2069-12-31 23:59:59. -/
structure Moment where
  year : ℕ
  month : ℕ
  day : ℕ
  hour : ℕ
  minute : ℕ
  second : ℕ
  years : 1970 ≤ year ∧ year ≤ 2069
  months : 1 ≤ month ∧ month ≤ 12
  days : 1 ≤ day ∧ day ≤ daysIn year month
  hours : hour < 24
  minutes : minute < 60
  seconds : second < 60

structure Config where
  binary : Bool
  hours24 : Bool

def Config.field (cfg : Config) (n : ℕ) : UInt8 := if cfg.binary then UInt8.ofNat n else UInt8.ofNat (n/10*16+n % 10)

/-- The hour on a clock face. -/
def onDial (hour : ℕ) : ℕ := if hour % 12 = 0 then 12 else hour % 12

def Config.hourField (cfg : Config) (hour : ℕ) : UInt8 :=
  if cfg.hours24 then cfg.field hour else cfg.field (onDial hour) ||| (if 12 ≤ hour then 0x80 else 0)

/-- The registers hold the encoding of a moment, and no wait for the update flag is in vain. -/
structure Encodes (chip : Chip) (cfg : Config) (m : Moment) : Prop where
  binary : chip.regs regStatusB &&& 0x04 = 0 ↔ cfg.binary = false
  hours24 : chip.regs regStatusB &&& 0x02 = 0 ↔ cfg.hours24 = false
  second : chip.regs regSecond = cfg.field m.second
  minute : chip.regs regMinute = cfg.field m.minute
  hour : chip.regs regHour = cfg.hourField m.hour
  day : chip.regs regDay = cfg.field m.day
  month : chip.regs regMonth = cfg.field m.month
  year : chip.regs regYear = cfg.field (m.year % 100)
  clears : ∀ n, ∃ k, n ≤ k ∧ chip.statusA k &&& 0x80 = 0

structure SameTime (t : RtcTime) (m : Moment) : Prop where
  year : t.year.toNat = m.year
  month : t.month.toNat = m.month
  day : t.day.toNat = m.day
  hour : t.hour.toNat = m.hour
  minute : t.minute.toNat = m.minute
  second : t.second.toNat = m.second

/-- Both calls return, the one with the moment and the other with its seconds since midnight. -/
def Decodes (chip : Chip) (m : Moment) : Prop :=
  ∀ t cmos, (∃ fuel t' cmos', rtcRead chip fuel t cmos = some (t',cmos') ∧ SameTime t' m) ∧
    ∃ fuel eax cmos', sysGettime chip fuel t cmos = some (eax,cmos') ∧ eax.toNat = m.hour*3600+m.minute*60+m.second

/-! ## The calls return -/

theorem cmosRead_statusA (chip : Chip) (cmos : Cmos) :
    cmosRead chip regStatusA cmos = (chip.statusA cmos.polls,⟨nmiDisable ||| regStatusA,cmos.polls+1⟩) := by
  have hreg : (nmiDisable ||| regStatusA) &&& 0x7F = regStatusA := by decide
  simp [cmosRead,inData,outIndex,hreg]

theorem cmosRead_stable (chip : Chip) {reg : UInt8} (cmos : Cmos) (hreg : (nmiDisable ||| reg) &&& 0x7F = reg)
    (hA : reg ≠ regStatusA) : cmosRead chip reg cmos = (chip.regs reg,{ cmos with index := nmiDisable ||| reg }) := by
  simp [cmosRead,inData,outIndex,hreg,hA]

theorem waitUpdate_returns {chip : Chip} (k : ℕ) (hk : chip.statusA k &&& 0x80 = 0) (cmos : Cmos) (hle : cmos.polls ≤ k) :
    ∃ fuel cmos', waitUpdate chip fuel cmos = some cmos' := by
  -- the number of readings before the clear one
  obtain ⟨d,hd⟩ := Nat.exists_eq_add_of_le hle
  induction d generalizing cmos with
  | zero =>
    refine ⟨1,⟨nmiDisable ||| regStatusA,cmos.polls+1⟩,?_⟩
    rw [waitUpdate,cmosRead_statusA]
    have hclear : chip.statusA cmos.polls &&& 0x80 = 0 := by rwa [show cmos.polls = k by omega]
    simp [hclear]
  | succ d ih =>
    by_cases hbusy : chip.statusA cmos.polls &&& 0x80 = 0
    · exact ⟨1,⟨nmiDisable ||| regStatusA,cmos.polls+1⟩,by simp [waitUpdate,cmosRead_statusA,hbusy]⟩
    · obtain ⟨fuel,cmos',hwait⟩ := ih ⟨nmiDisable ||| regStatusA,cmos.polls+1⟩ (by dsimp only; omega) (by dsimp only; omega)
      exact ⟨fuel+1,cmos',by simpa [waitUpdate,cmosRead_statusA,hbusy] using hwait⟩

/-- The record after the six readings. -/
def held (chip : Chip) : RtcTime :=
  ⟨(chip.regs regYear).toUInt16,chip.regs regMonth,chip.regs regDay,chip.regs regHour,chip.regs regMinute,chip.regs regSecond⟩

def decoded (chip : Chip) : RtcTime := convert (chip.regs regStatusB) (held chip)

theorem rtcRead_eq (chip : Chip) (fuel : ℕ) (t : RtcTime) (cmos : Cmos) :
    rtcRead chip fuel t cmos =
      (waitUpdate chip fuel cmos).map (fun cmos => (decoded chip,{ cmos with index := nmiDisable ||| regYear })) := by
  unfold rtcRead readRegisters
  simp (disch := decide) only [cmosRead_stable]
  rfl

theorem rtcRead_decoded {chip : Chip} {fuel : ℕ} {t t' : RtcTime} {cmos cmos' : Cmos}
    (h : rtcRead chip fuel t cmos = some (t',cmos')) : t' = decoded chip := by
  rw [rtcRead_eq,Option.map_eq_some_iff] at h
  obtain ⟨_,-,he⟩ := h
  exact (Prod.mk.inj he).1.symm

theorem Encodes.returns {chip : Chip} {cfg : Config} {m : Moment} (h : Encodes chip cfg m) (t : RtcTime) (cmos : Cmos) :
    ∃ fuel cmos', rtcRead chip fuel t cmos = some (decoded chip,cmos') := by
  obtain ⟨k,hle,hk⟩ := h.clears cmos.polls
  obtain ⟨fuel,cmos',hwait⟩ := waitUpdate_returns k hk cmos hle
  exact ⟨fuel,{ cmos' with index := nmiDisable ||| regYear },by rw [rtcRead_eq,hwait,Option.map_some]⟩

/-! ## One field at a time -/

theorem bcdToBin_packed : ∀ n < 100, bcdToBin (UInt8.ofNat (n/10*16+n % 10)) = UInt8.ofNat n := by decide

theorem toNat_small {n : ℕ} (h : n < 100) : (UInt8.ofNat n).toNat = n := by
  rw [UInt8.toNat_ofNat']
  omega

/-- The record after the BCD conversion: every field but the hour and the century is right. -/
structure Unpacked (t : RtcTime) (cfg : Config) (m : Moment) : Prop where
  year : t.year = UInt16.ofNat (m.year % 100)
  month : t.month = UInt8.ofNat m.month
  day : t.day = UInt8.ofNat m.day
  hour : t.hour = if cfg.binary then cfg.hourField m.hour else bcdToBin (cfg.hourField m.hour)
  minute : t.minute = UInt8.ofNat m.minute
  second : t.second = UInt8.ofNat m.second

theorem Moment.day_lt (m : Moment) : m.day < 100 := by
  have hd := m.days.2
  have : daysIn m.year m.month ≤ 31 := by
    unfold daysIn
    split_ifs <;> omega
  omega

theorem toUInt16_ofNat {n : ℕ} (h : n < 100) : (UInt8.ofNat n).toUInt16 = UInt16.ofNat n := by
  apply UInt16.toNat_inj.mp
  rw [UInt8.toNat_toUInt16,UInt8.toNat_ofNat',UInt16.toNat_ofNat']
  omega

theorem Encodes.unpacked {chip : Chip} {cfg : Config} {m : Moment} (h : Encodes chip cfg m) :
    Unpacked (if chip.regs regStatusB &&& 0x04 = 0 then fromBcd (held chip) else held chip) cfg m := by
  have hs := m.seconds
  have hmin := m.minutes
  have hmon := m.months.2
  have hd := m.day_lt
  have hy : m.year % 100 < 100 := Nat.mod_lt _ (by decide)
  cases hb : cfg.binary with
  | true =>
    have hfield : ∀ n, cfg.field n = UInt8.ofNat n := fun n => by simp [Config.field,hb]
    rw [if_neg (by rw [h.binary,hb]; decide)]
    refine ⟨?_,?_,?_,?_,?_,?_⟩
    · change (chip.regs regYear).toUInt16 = _
      rw [h.year,hfield,toUInt16_ofNat hy]
    · exact h.month.trans (hfield _)
    · exact h.day.trans (hfield _)
    · rw [if_pos hb]
      exact h.hour
    · exact h.minute.trans (hfield _)
    · exact h.second.trans (hfield _)
  | false =>
    have hfield : ∀ n < 100, bcdToBin (cfg.field n) = UInt8.ofNat n := by
      intro n hn
      rw [Config.field,if_neg (by rw [hb]; decide)]
      exact bcdToBin_packed n hn
    rw [if_pos (h.binary.mpr hb)]
    refine ⟨?_,?_,?_,?_,?_,?_⟩
    · change (bcdToBin (chip.regs regYear).toUInt16.toUInt8).toUInt16 = _
      rw [UInt8.toUInt8_toUInt16,h.year,hfield _ hy,toUInt16_ofNat hy]
    · exact (congrArg bcdToBin h.month).trans (hfield _ (by omega))
    · exact (congrArg bcdToBin h.day).trans (hfield _ hd)
    · rw [if_neg (by rw [hb]; decide)]
      exact congrArg bcdToBin h.hour
    · exact (congrArg bcdToBin h.minute).trans (hfield _ (by omega))
    · exact (congrArg bcdToBin h.second).trans (hfield _ (by omega))

/-! ## The hour -/

/-- The hours that the driver gets right: all of them in the 24-hour mode, otherwise no midnight or noon and,
in BCD, no afternoon. -/
def Readable (cfg : Config) (hour : ℕ) : Prop :=
  cfg.hours24 = true ∨ (hour % 12 ≠ 0 ∧ (cfg.binary = true ∨ hour < 12))

/-- What the hour register comes out as. -/
def hourDecoded (cfg : Config) (hour : ℕ) : UInt8 :=
  let x := if cfg.binary then cfg.hourField hour else bcdToBin (cfg.hourField hour)
  if cfg.hours24 = false ∧ x &&& 0x80 ≠ 0 then ((x &&& 0x7F)+12) % 24 else x

theorem hourDecoded_iff : ∀ binary hours24 : Bool, ∀ hour < 24,
    (hourDecoded ⟨binary,hours24⟩ hour).toNat = hour ↔
      (hours24 = true ∨ (hour % 12 ≠ 0 ∧ (binary = true ∨ hour < 12))) := by
  decide

theorem fromTwelve_hour (statusB : UInt8) (t : RtcTime) : (fromTwelve statusB t).hour =
    if statusB &&& 0x02 = 0 ∧ t.hour &&& 0x80 ≠ 0 then ((t.hour &&& 0x7F)+12) % 24 else t.hour := by
  unfold fromTwelve
  split <;> rfl

theorem Encodes.decoded_hour {chip : Chip} {cfg : Config} {m : Moment} (h : Encodes chip cfg m) :
    (decoded chip).hour = hourDecoded cfg m.hour := by
  have hu := h.unpacked.hour
  unfold decoded convert addCentury hourDecoded
  dsimp only
  rw [fromTwelve_hour]
  simp only [h.hours24,hu]

theorem addCentury_year : ∀ y < 100, (UInt16.ofNat y+(if UInt16.ofNat y < 70 then 2000 else 1900)).toNat =
    if y < 70 then 2000+y else 1900+y := by
  decide

theorem fromTwelve_eq (statusB : UInt8) (t : RtcTime) :
    fromTwelve statusB t = { t with hour := (fromTwelve statusB t).hour } := by
  unfold fromTwelve
  split <;> rfl

theorem Encodes.sameTime_iff {chip : Chip} {cfg : Config} {m : Moment} (h : Encodes chip cfg m) :
    SameTime (decoded chip) m ↔ Readable cfg m.hour := by
  have hhour : (decoded chip).hour.toNat = m.hour ↔ Readable cfg m.hour := by
    rw [h.decoded_hour]
    exact hourDecoded_iff cfg.binary cfg.hours24 m.hour m.hours
  rw [← hhour]
  refine ⟨SameTime.hour,fun hh => ?_⟩
  have hu := h.unpacked
  have hs := m.seconds
  have hmin := m.minutes
  have hmon := m.months.2
  have hyears := m.years
  have hy : m.year % 100 < 100 := Nat.mod_lt _ (by decide)
  refine ⟨?_,?_,?_,hh,?_,?_⟩
  all_goals
    unfold decoded convert addCentury
    dsimp only
    rw [fromTwelve_eq]
    dsimp only
  · rw [hu.year,addCentury_year _ hy]
    split <;> omega
  · rw [hu.month,toNat_small (by omega)]
  · rw [hu.day,toNat_small m.day_lt]
  · rw [hu.minute,toNat_small (by omega)]
  · rw [hu.second,toNat_small (by omega)]

theorem SameTime.seconds {t : RtcTime} {m : Moment} (h : SameTime t m) :
    (t.hour.toUInt32*3600+t.minute.toUInt32*60+t.second.toUInt32).toNat = m.hour*3600+m.minute*60+m.second := by
  have hh := m.hours
  have hm := m.minutes
  have hs := m.seconds
  simp only [UInt32.toNat_add,UInt32.toNat_mul,UInt8.toNat_toUInt32,h.hour,h.minute,h.second]
  change ((m.hour*3600 % 2^32+m.minute*60 % 2^32) % 2^32+m.second) % 2^32 = _
  omega

/-- The driver decodes a moment in exactly the formats and at the hours that are readable. -/
theorem rtc_decodes_iff (chip : Chip) (cfg : Config) (m : Moment) (h : Encodes chip cfg m) :
    Decodes chip m ↔ Readable cfg m.hour := by
  constructor
  · intro hd
    obtain ⟨⟨fuel,t,cmos,hread,hsame⟩,-⟩ := hd ⟨0,0,0,0,0,0⟩ ⟨0,0⟩
    rw [rtcRead_decoded hread] at hsame
    exact h.sameTime_iff.mp hsame
  · intro hr t cmos
    have hsame := h.sameTime_iff.mpr hr
    obtain ⟨fuel,cmos',hread⟩ := h.returns t cmos
    refine ⟨⟨fuel,_,cmos',hread,hsame⟩,fuel,_,cmos',?_,hsame.seconds⟩
    rw [sysGettime,hread,Option.map_some]

/-- A chip that shows a moment and never updates. -/
def chipAt (cfg : Config) (m : Moment) : Chip where
  regs reg :=
    if reg = regSecond then cfg.field m.second
    else if reg = regMinute then cfg.field m.minute
    else if reg = regHour then cfg.hourField m.hour
    else if reg = regDay then cfg.field m.day
    else if reg = regMonth then cfg.field m.month
    else if reg = regYear then cfg.field (m.year % 100)
    else (if cfg.binary then 0x04 else 0) ||| (if cfg.hours24 then 0x02 else 0)
  statusA _ := 0x26

theorem chipAt_encodes (cfg : Config) (m : Moment) : Encodes (chipAt cfg m) cfg m where
  binary := by
    change ((if cfg.binary then (0x04 : UInt8) else 0) ||| (if cfg.hours24 then 0x02 else 0)) &&& 0x04 = 0 ↔ _
    cases cfg.binary <;> cases cfg.hours24 <;> decide
  hours24 := by
    change ((if cfg.binary then (0x04 : UInt8) else 0) ||| (if cfg.hours24 then 0x02 else 0)) &&& 0x02 = 0 ↔ _
    cases cfg.binary <;> cases cfg.hours24 <;> decide
  second := rfl
  minute := rfl
  hour := rfl
  day := rfl
  month := rfl
  year := rfl
  clears n := ⟨n,le_rfl,show (0x26 : UInt8) &&& 0x80 = 0 by decide⟩

/-- 2024-02-29 13:05:09. -/
def leapAfternoon : Moment :=
  ⟨2024,2,29,13,5,9,by decide,by decide,by decide,by decide,by decide,by decide⟩

/-- In a binary 12-hour clock the afternoon is decoded. -/
theorem rtc_decodes_afternoon : Decodes (chipAt ⟨true,false⟩ leapAfternoon) leapAfternoon :=
  (rtc_decodes_iff _ ⟨true,false⟩ leapAfternoon (chipAt_encodes _ _)).mpr (.inr ⟨by decide,.inl rfl⟩)

/-- In a BCD 12-hour clock the conversion swallows the PM marker, and 1 PM comes out as hour 81. -/
theorem bcd_afternoon_garbled :
    Encodes (chipAt ⟨false,false⟩ leapAfternoon) ⟨false,false⟩ leapAfternoon ∧
    (rtcRead (chipAt ⟨false,false⟩ leapAfternoon) 1 ⟨0,0,0,0,0,0⟩ ⟨0,0⟩).map (fun r => r.1.hour) = some 81 ∧
    ¬ Decodes (chipAt ⟨false,false⟩ leapAfternoon) leapAfternoon := by
  refine ⟨chipAt_encodes _ _,by decide +kernel,?_⟩
  intro hd
  obtain ⟨⟨fuel,t,cmos,hread,hsame⟩,-⟩ := hd ⟨0,0,0,0,0,0⟩ ⟨0,0⟩
  rw [rtcRead_decoded hread] at hsame
  have hhour : (decoded (chipAt ⟨false,false⟩ leapAfternoon)).hour = 81 := by decide +kernel
  have := hsame.hour
  rw [hhour] at this
  exact absurd this (by decide)

end VesperOS.Rtc
