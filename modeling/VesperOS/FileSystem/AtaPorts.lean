import VesperOS.Base.PortIO
import VesperOS.FileSystem.VesperFs

/-! # The ATA driver at its ports

`ata.c` against a drive that keeps the PIO protocol: it is busy for as long as it likes after a command and after
each sector, and the other status bits are arbitrary then. For such a drive the driver's calls are the sector
programs on which the file system stands.
-/
namespace VesperOS.AtaPorts
open PortIO DiskProgram VesperFs

/-! ## The driver -/

def ataData : ℕ := 0x1F0
def ataSectCount : ℕ := 0x1F2
def ataLbaLow : ℕ := 0x1F3
def ataLbaMid : ℕ := 0x1F4
def ataLbaHigh : ℕ := 0x1F5
def ataDriveHead : ℕ := 0x1F6
def ataStatus : ℕ := 0x1F7
def ataAltStatus : ℕ := 0x3F6

def ataSrBsy : UInt8 := 0x80
def ataSrDrq : UInt8 := 0x08
def ataSrErr : UInt8 := 0x01

def ataCmdRead : UInt8 := 0x20
def ataCmdWrite : UInt8 := 0x30
def ataCmdIdent : UInt8 := 0xEC

/-- The bound of both polling loops. -/
def pollLimit : ℕ := 0x100000

section Driver
variable {σ : Type} (P : Ports σ)

def ataDelay400ns (s : σ) : σ := skip P ataAltStatus 4 s

def notBusy (v : UInt8) : Option Unit := if v &&& ataSrBsy = 0 then some () else none

def ataWaitNotBusy (s : σ) : Bool × σ :=
  let r := poll P ataStatus notBusy pollLimit s
  (r.1.isSome,r.2)

/-- ERR ends the loop before BSY is looked at. -/
def dataRequest (v : UInt8) : Option Bool :=
  if v &&& ataSrErr ≠ 0 then some false
  else if v &&& ataSrBsy = 0 ∧ v &&& ataSrDrq ≠ 0 then some true
  else none

def ataWaitDrq (s : σ) : Bool × σ :=
  let r := poll P ataStatus dataRequest pollLimit s
  (r.1 = some true,r.2)

def issue (lba : UInt32) (count cmd : UInt8) (s : σ) : σ :=
  let s := P.outb ataDriveHead ((0xE0 : UInt32) ||| ((lba >>> 24) &&& 0x0F)).toUInt8 s
  let s := P.outb ataSectCount count s
  let s := P.outb ataLbaLow (lba &&& 0xFF).toUInt8 s
  let s := P.outb ataLbaMid ((lba >>> 8) &&& 0xFF).toUInt8 s
  let s := P.outb ataLbaHigh ((lba >>> 16) &&& 0xFF).toUInt8 s
  P.outb ataStatus cmd s

/-- The words that have arrived in the buffer, and whether all did. -/
def readLoop : ℕ → σ → (Bool × List UInt16) × σ
  | 0, s => ((true,[]),s)
  | k+1, s =>
    let w := ataWaitDrq P s
    if w.1 then
      let ws := readWords P ataData 256 w.2
      let r := readLoop k (ataDelay400ns P ws.2)
      ((r.1.1,ws.1++r.1.2),r.2)
    else ((false,[]),w.2)

def ataReadSectors (lba : UInt32) (count : UInt8) (s : σ) : (Bool × List UInt16) × σ :=
  if count = 0 then ((true,[]),s)
  else
    let w := ataWaitNotBusy P s
    if w.1 then readLoop P count.toNat (issue P lba count ataCmdRead w.2) else ((false,[]),w.2)

/-- The words of sector `i` of the buffer. -/
def bufferWords (buf : ℕ → UInt16) (i : ℕ) : List UInt16 := (List.range 256).map fun j => buf (256*i+j)

/-- From sector `i` of the buffer on. -/
def writeLoop (buf : ℕ → UInt16) : ℕ → ℕ → σ → Bool × σ
  | 0, _, s => (true,s)
  | k+1, i, s =>
    let w := ataWaitDrq P s
    if w.1 then writeLoop buf k (i+1) (ataDelay400ns P (writeWords P ataData (bufferWords buf i) w.2)) else (false,w.2)

def ataWriteSectors (lba : UInt32) (count : UInt8) (buf : ℕ → UInt16) (s : σ) : Bool × σ :=
  if count = 0 then (true,s)
  else
    let w := ataWaitNotBusy P s
    if w.1 then writeLoop P buf count.toNat 0 (issue P lba count ataCmdWrite w.2) else (false,w.2)

/-- `ata_init` from the first status read on. -/
def identify (s : σ) : Bool × σ :=
  let status := P.inb ataStatus s
  if status.1 = 0 then (false,status.2)
  else
    let w := ataWaitNotBusy P status.2
    if w.1 then
      let mid := P.inb ataLbaMid w.2
      if mid.1 ≠ 0 then (false,mid.2)
      else
        let high := P.inb ataLbaHigh mid.2
        if high.1 ≠ 0 then (false,high.2)
        else
          let d := ataWaitDrq P high.2
          if d.1 then (true,(readWords P ataData 256 d.2).2) else (false,d.2)
    else (false,w.2)

def ataInit (s : σ) : Bool × σ :=
  let s := ataDelay400ns P (P.outb ataDriveHead 0xE0 s)
  let s := P.outb ataSectCount 0 s
  let s := P.outb ataLbaLow 0 s
  let s := P.outb ataLbaMid 0 s
  let s := P.outb ataLbaHigh 0 s
  identify P (P.outb ataStatus ataCmdIdent s)

end Driver

/-! ## The drive -/

inductive Transfer where
  | idle
  | read (lba left word : ℕ)
  | write (lba left word : ℕ)
  | identify (word : ℕ)

/-- What the drive is free to do: for how many status reads it is busy in each period, and the bits that no rule fixes. -/
structure Timing where
  delay : ℕ → ℕ
  noise : ℕ → UInt8

/-- The drive finishes each sector before the driver gives up. -/
def Timing.Prompt (E : Timing) : Prop := ∀ n, E.delay n < pollLimit

structure AtaDrive where
  size : ℕ
  disk : ℕ → ℕ → UInt16
  buffer : ℕ → UInt16
  transfer : Transfer
  failed : Bool
  busy : ℕ
  periods : ℕ
  ticks : ℕ
  count : UInt8
  lbaLow : UInt8
  lbaMid : UInt8
  lbaHigh : UInt8
  driveHead : UInt8

/-- Words are little endian. -/
def sectorOf (w : ℕ → UInt16) : Sector := fun i =>
  if i.val%2 = 0 then UInt8.ofNat (w (i.val/2)).toNat else UInt8.ofNat ((w (i.val/2)).toNat/2^8)

def wordsOf (s : Sector) (j : ℕ) : UInt16 :=
  UInt16.ofNat ((sectorMem s (2*j)).toNat+2^8*(sectorMem s (2*j+1)).toNat)

namespace AtaDrive
variable (E : Timing)

def lba (d : AtaDrive) : ℕ :=
  d.lbaLow.toNat+2^8*d.lbaMid.toNat+2^16*d.lbaHigh.toNat+2^24*(d.driveHead.toNat%16)

/-- A sector count of 0 means 256. -/
def sectors (d : AtaDrive) : ℕ := if d.count = 0 then 256 else d.count.toNat

def drqFlag : Transfer → UInt8
  | .idle => 0
  | _ => ataSrDrq

def errFlag (failed : Bool) : UInt8 := if failed then ataSrErr else 0

/-- While BSY is set only ERR is fixed among the other bits: the driver looks at it before BSY. -/
def status (d : AtaDrive) : UInt8 :=
  if 0 < d.busy then ataSrBsy ||| (E.noise d.ticks &&& 0x7E)
  else (E.noise d.ticks &&& 0x76) ||| (drqFlag d.transfer ||| errFlag d.failed)

def tick (d : AtaDrive) : AtaDrive := { d with busy := d.busy-1, ticks := d.ticks+1 }

def start (t : Transfer) (d : AtaDrive) : AtaDrive :=
  { d with transfer := t, busy := E.delay d.periods, periods := d.periods+1 }

/-- The next sector of a command, which fails past the end of the disk. -/
def advance (mk : ℕ → ℕ → ℕ → Transfer) (lba left : ℕ) (d : AtaDrive) : AtaDrive :=
  if left = 0 then d.start E .idle
  else if lba < d.size then d.start E (mk lba left 0)
  else { d.start E .idle with failed := true }

def command (v : UInt8) (d : AtaDrive) : AtaDrive :=
  let d := { d with failed := false }
  if v = ataCmdRead then d.advance E .read d.lba d.sectors
  else if v = ataCmdWrite then d.advance E .write d.lba d.sectors
  else if v = ataCmdIdent then d.start E (.identify 0)
  else { d with failed := true }

def inb (port : ℕ) (d : AtaDrive) : UInt8 × AtaDrive :=
  if port = ataStatus ∨ port = ataAltStatus then (d.status E,d.tick)
  else if port = ataSectCount then (d.count,d)
  else if port = ataLbaLow then (d.lbaLow,d)
  else if port = ataLbaMid then (d.lbaMid,d)
  else if port = ataLbaHigh then (d.lbaHigh,d)
  else if port = ataDriveHead then (d.driveHead,d)
  else (0xFF,d)

/-- The registers take no writes while the drive is busy. -/
def outb (port : ℕ) (v : UInt8) (d : AtaDrive) : AtaDrive :=
  if 0 < d.busy then d
  else if port = ataSectCount then { d with count := v }
  else if port = ataLbaLow then { d with lbaLow := v }
  else if port = ataLbaMid then { d with lbaMid := v }
  else if port = ataLbaHigh then { d with lbaHigh := v }
  else if port = ataDriveHead then { d with driveHead := v }
  else if port = ataStatus then d.command E v
  else d

def inw (port : ℕ) (d : AtaDrive) : UInt16 × AtaDrive :=
  if port ≠ ataData ∨ 0 < d.busy then (0xFFFF,d)
  else match d.transfer with
    | .read lba left word =>
      (d.disk lba word,if word+1 = 256 then d.advance E .read (lba+1) (left-1) else { d with transfer := .read lba left (word+1) })
    | .identify word =>
      (0,if word+1 = 256 then d.start E .idle else { d with transfer := .identify (word+1) })
    | _ => (0xFFFF,d)

/-- A sector is on the disk when its last word has come. -/
def outw (port : ℕ) (v : UInt16) (d : AtaDrive) : AtaDrive :=
  if port ≠ ataData ∨ 0 < d.busy then d
  else match d.transfer with
    | .write lba left word =>
      let d := { d with buffer := Function.update d.buffer word v }
      if word+1 = 256 then { d with disk := Function.update d.disk lba d.buffer }.advance E .write (lba+1) (left-1)
      else { d with transfer := .write lba left (word+1) }
    | _ => d

def ports : Ports AtaDrive := ⟨inb E,outb E,inw E,outw E⟩

/-! States that a command goes through -/

/-- The drive but for the time. -/
def core (d : AtaDrive) : AtaDrive := { d with busy := 0, ticks := 0 }

/-- The drive after a sector has come. -/
def store (lba : ℕ) (b : ℕ → UInt16) (d : AtaDrive) : AtaDrive :=
  { d with disk := Function.update d.disk lba b, buffer := b }

/-- The registers of a command. -/
def select (lba : UInt32) (count : UInt8) (d : AtaDrive) : AtaDrive :=
  { d with
    driveHead := ((0xE0 : UInt32) ||| ((lba >>> 24) &&& 0x0F)).toUInt8, count := count,
    lbaLow := (lba &&& 0xFF).toUInt8, lbaMid := ((lba >>> 8) &&& 0xFF).toUInt8,
    lbaHigh := ((lba >>> 16) &&& 0xFF).toUInt8 }

/-- The state in which a command starts its first sector. -/
def begun (lba : UInt32) (count : UInt8) (d : AtaDrive) : AtaDrive :=
  { d.select lba count with failed := false }

def contents (d : AtaDrive) : Disk Sector := fun lba => sectorOf (d.disk lba)

end AtaDrive

end VesperOS.AtaPorts
