import VesperOS.Console.Vga

/-! # Formatted output

`vga_printf` of `vga.c`. Its scanner reads the format one byte at a time and is a machine
here whose every step reads the byte at its position. The memory behind the format is
arbitrary. Arguments are passed as values: a word, or a pointer with the string behind it.
-/
namespace VesperOS.Printf
open Vga

abbrev Bytes := List UInt8

inductive Arg where
  | word (n : UInt32)
  | str (s : Option Bytes)

/-! ## Numbers -/

/-- The digits as the loops store them, least significant first. -/
def storedDigits (base n : ℕ) : List ℕ := if n = 0 then [0] else Nat.digits base n

/-- A signed 32-bit value. -/
def toInt (x : ℤ) : ℤ := Int.bmod x (2^32)

def vgaPrintUintPadded (n : UInt32) (width : ℤ) (con : Console) : Console :=
  let buf := (storedDigits 10 n.toNat).map (fun d => UInt8.ofNat (0x30+d))
  vgaPuts (List.replicate (width-buf.length).toNat 0x30++buf.reverse) con

def vgaPrintUint (n : UInt32) (con : Console) : Console :=
  vgaPuts ((storedDigits 10 n.toNat).map (fun d => UInt8.ofNat (0x30+d))).reverse con

def vgaPuthex (n : UInt32) (upper : Bool) (con : Console) : Console :=
  let digit (d : ℕ) := if d < 10 then UInt8.ofNat (0x30+d) else UInt8.ofNat ((if upper then 0x41 else 0x61)+(d-10))
  vgaPuts ((storedDigits 16 n.toNat).map digit).reverse con

/-! ## The scanner -/

/-- Between two conversions, at the zero flag, or at a width digit or the conversion letter. -/
inductive Mode where
  | text
  | flag
  | width (zeroPad : Bool) (width : ℤ)

structure Scanner where
  pos : ℕ
  mode : Mode
  args : List Arg
  con : Console

/-- The text "(null)". -/
def nullText : Bytes := [0x28,0x6E,0x75,0x6C,0x6C,0x29]

/-- The `switch`: the arguments left and the console. The wrong argument for a conversion is undefined behaviour. -/
def convert (spec : UInt8) (zeroPad : Bool) (width : ℤ) (args : List Arg) (con : Console) :
    Option (List Arg × Console) :=
  if spec = 0x63 then
    match args with
    | .word n :: rest => some (rest,vgaPutchar n.toUInt8 con)
    | _ => none
  else if spec = 0x73 then
    match args with
    | .str s :: rest => some (rest,vgaPuts (s.getD nullText) con)
    | _ => none
  else if spec = 0x64 then
    match args with
    | .word n :: rest =>
      if toInt n.toNat < 0 then
        some (rest,vgaPrintUintPadded (0-n) (if 1 < width then width-1 else 0) (vgaPutchar 0x2D con))
      else some (rest,vgaPrintUintPadded n (if zeroPad then width else 0) con)
    | _ => none
  else if spec = 0x75 then
    match args with
    | .word n :: rest => some (rest,vgaPrintUintPadded n (if zeroPad then width else 0) con)
    | _ => none
  else if spec = 0x78 ∨ spec = 0x58 then
    match args with
    | .word n :: rest => some (rest,vgaPuthex n (spec = 0x58) con)
    | _ => none
  else if spec = 0x25 then some (args,vgaPutchar 0x25 con)
  else
    let con := vgaPutchar 0x25 con
    let con := if zeroPad then vgaPutchar 0x30 con else con
    let con := if 0 < width then vgaPutchar (UInt8.ofNat (0x30+(width % 10).toNat)) con else con
    some (args,vgaPutchar spec con)

def isDigit (c : UInt8) : Bool := 0x30 ≤ c ∧ c ≤ 0x39

inductive Turn where
  | finished (con : Console)
  | next (s : Scanner)
  | undefined

/-- One byte of the format. -/
def scanByte (c : UInt8) (s : Scanner) : Turn :=
  match s.mode with
  | .text =>
    if c = 0 then .finished s.con
    else if c ≠ 0x25 then .next { s with pos := s.pos+1, con := vgaPutchar c s.con }
    else .next { s with pos := s.pos+1, mode := .flag }
  | .flag =>
    if c = 0x30 then .next { s with pos := s.pos+1, mode := .width true 0 }
    else .next { s with mode := .width false 0 }
  | .width zeroPad w =>
    if isDigit c then .next { s with pos := s.pos+1, mode := .width zeroPad (toInt (w*10+((c.toNat : ℤ)-0x30))) }
    else
      match convert c zeroPad w s.args s.con with
      | none => .undefined
      | some (args,con) => .next ⟨s.pos+1,.text,args,con⟩

/-- The console at the end and the offsets of the format that were read, if `fuel` steps are enough. -/
def scan (fmt : ℕ → UInt8) : ℕ → Scanner → Option (Console × List ℕ)
  | 0, _ => none
  | fuel+1, s =>
    match scanByte (fmt s.pos) s with
    | .finished con => some (con,[s.pos])
    | .next s' => (scan fmt fuel s').map (fun r => (r.1,s.pos :: r.2))
    | .undefined => none

def vgaPrintf (fmt : ℕ → UInt8) (args : List Arg) (con : Console) (fuel : ℕ) : Option (Console × List ℕ) :=
  scan fmt fuel ⟨0,.text,args,con⟩

/-! ## Formats -/

/-- A string with its NUL at the start of a memory. -/
structure Holds (fmt : ℕ → UInt8) (s : Bytes) : Prop where
  string : 0 ∉ s
  bytes : ∀ i ≤ s.length, fmt i = s.getD i 0

/-- What a conversion letter takes: a word, or a string. -/
inductive Kind where
  | word
  | str

def Arg.kind : Arg → Kind
  | .word _ => .word
  | .str _ => .str

def specKind (spec : UInt8) : List Kind :=
  if spec = 0x73 then [.str]
  else if spec = 0x63 ∨ spec = 0x64 ∨ spec = 0x75 ∨ spec = 0x78 ∨ spec = 0x58 then [.word]
  else []

/-- The arguments that the conversions of a format take, from inside a conversion or outside. -/
def wanted : Bool → Bytes → List Kind
  | _, [] => []
  | false, c :: s => wanted (c = 0x25) s
  | true, c :: s => if isDigit c then wanted true s else specKind c++wanted false s

/-- The string ends inside a conversion: its percent sign and the digits behind it are not followed by a letter. -/
def cutOff : Bool → Bytes → Bool
  | inside, [] => inside
  | false, c :: s => cutOff (c = 0x25) s
  | true, c :: s => cutOff (isDigit c) s

/-- The scanner ends and reads nothing behind the NUL. -/
def StaysInside (fmt : ℕ → UInt8) (s : Bytes) (args : List Arg) (con : Console) : Prop :=
  ∃ fuel con' reads, vgaPrintf fmt args con fuel = some (con',reads) ∧ ∀ i ∈ reads, i ≤ s.length

/-! ## One byte of the scan -/

/-- From this state the scanner ends and reads no offset above `n`. -/
def Ends (fmt : ℕ → UInt8) (n : ℕ) (st : Scanner) : Prop :=
  ∃ fuel con reads, scan fmt fuel st = some (con,reads) ∧ ∀ i ∈ reads, i ≤ n

theorem ends_next {fmt : ℕ → UInt8} {n : ℕ} {st : Scanner} (st' : Scanner)
    (hnext : scanByte (fmt st.pos) st = .next st') (hpos : st.pos ≤ n) : Ends fmt n st ↔ Ends fmt n st' := by
  constructor
  · rintro ⟨fuel,con,reads,hscan,hreads⟩
    cases fuel with
    | zero => simp [scan] at hscan
    | succ fuel =>
      simp only [scan,hnext,Option.map_eq_some_iff,Prod.mk.injEq] at hscan
      obtain ⟨⟨con',reads'⟩,hscan,rfl,rfl⟩ := hscan
      exact ⟨fuel,con',reads',hscan,fun i hi => hreads i (List.mem_cons_of_mem _ hi)⟩
  · rintro ⟨fuel,con,reads,hscan,hreads⟩
    refine ⟨fuel+1,con,st.pos :: reads,?_,?_⟩
    · simp [scan,hnext,hscan]
    · intro i hi
      rcases List.mem_cons.mp hi with rfl | hi
      · exact hpos
      · exact hreads i hi

theorem ends_finished {fmt : ℕ → UInt8} {n : ℕ} {st : Scanner} {con : Console}
    (hlast : scanByte (fmt st.pos) st = .finished con) (hpos : st.pos ≤ n) : Ends fmt n st :=
  ⟨1,con,[st.pos],by simp [scan,hlast],by simpa using hpos⟩

-- every state reads the byte it stands at, so one behind the NUL is already too far
theorem not_ends_beyond {fmt : ℕ → UInt8} {n : ℕ} {st : Scanner} (hpos : n < st.pos) : ¬ Ends fmt n st := by
  rintro ⟨fuel,con,reads,hscan,hreads⟩
  have hmem : st.pos ∈ reads := by
    cases fuel with
    | zero => simp [scan] at hscan
    | succ fuel =>
      simp only [scan] at hscan
      split at hscan
      · obtain ⟨-,rfl⟩ := Prod.mk.inj (Option.some.inj hscan)
        exact List.mem_singleton_self _
      · obtain ⟨r,-,hr⟩ := Option.map_eq_some_iff.mp hscan
        obtain ⟨-,rfl⟩ := Prod.mk.inj hr
        exact List.mem_cons_self
      · cases hscan
  have := hreads _ hmem
  omega

theorem map_kind_word {args : List Arg} {kinds : List Kind} (h : args.map Arg.kind = .word :: kinds) :
    ∃ n rest, args = .word n :: rest ∧ rest.map Arg.kind = kinds := by
  rcases args with _ | ⟨_ | _,rest⟩
  · simp at h
  · exact ⟨_,rest,rfl,(List.cons.inj h).2⟩
  · simp [Arg.kind] at h

theorem map_kind_str {args : List Arg} {kinds : List Kind} (h : args.map Arg.kind = .str :: kinds) :
    ∃ s rest, args = .str s :: rest ∧ rest.map Arg.kind = kinds := by
  rcases args with _ | ⟨_ | _,rest⟩
  · simp at h
  · simp [Arg.kind] at h
  · exact ⟨_,rest,rfl,(List.cons.inj h).2⟩

theorem convert_signed (zeroPad : Bool) (width : ℤ) (n : UInt32) (rest : List Arg) (con : Console) :
    convert 0x64 zeroPad width (.word n :: rest) con = if toInt n.toNat < 0 then
      some (rest,vgaPrintUintPadded (0-n) (if 1 < width then width-1 else 0) (vgaPutchar 0x2D con))
      else some (rest,vgaPrintUintPadded n (if zeroPad then width else 0) con) := by
  simp [convert]

theorem convert_matching {spec : UInt8} {args : List Arg} {kinds : List Kind} (zeroPad : Bool) (width : ℤ) (con : Console)
    (hargs : args.map Arg.kind = specKind spec++kinds) :
    ∃ args' con', convert spec zeroPad width args con = some (args',con') ∧ args'.map Arg.kind = kinds := by
  unfold specKind at hargs
  split at hargs
  · obtain ⟨s,rest,rfl,hrest⟩ := map_kind_str hargs
    rename_i hs
    subst hs
    exact ⟨rest,_,rfl,hrest⟩
  · split at hargs
    · obtain ⟨n,rest,rfl,hrest⟩ := map_kind_word hargs
      rename_i hw
      rcases hw with rfl | rfl | rfl | rfl | rfl
      · exact ⟨rest,_,rfl,hrest⟩
      · rw [convert_signed]
        split
        · exact ⟨rest,_,rfl,hrest⟩
        · exact ⟨rest,_,rfl,hrest⟩
      · exact ⟨rest,_,rfl,hrest⟩
      · exact ⟨rest,_,rfl,hrest⟩
      · exact ⟨rest,_,rfl,hrest⟩
    · rename_i hs hw
      simp only [not_or] at hw
      obtain ⟨hc,hd,hu,hx,hX⟩ := hw
      by_cases hp : spec = 0x25
      · subst hp
        exact ⟨args,_,rfl,hargs⟩
      · exact ⟨args,_,by simp only [convert,hc,hs,hd,hu,hx,hX,hp,or_self,↓reduceIte]; rfl,hargs⟩

/-! ## The rest of the format -/

/-- `rest` and the NUL stand at `pos`, the NUL at offset `n`. -/
structure Rest (fmt : ℕ → UInt8) (n pos : ℕ) (rest : Bytes) : Prop where
  ends : pos+rest.length = n
  string : 0 ∉ rest
  bytes : ∀ i ≤ rest.length, fmt (pos+i) = rest.getD i 0

theorem Rest.head {fmt : ℕ → UInt8} {n pos : ℕ} {rest : Bytes} (h : Rest fmt n pos rest) : fmt pos = rest.getD 0 0 := by
  simpa using h.bytes 0 (Nat.zero_le _)

theorem Rest.le {fmt : ℕ → UInt8} {n pos : ℕ} {rest : Bytes} (h : Rest fmt n pos rest) : pos ≤ n := by
  have := h.ends
  omega

theorem Rest.tail {fmt : ℕ → UInt8} {n pos : ℕ} {c : UInt8} {rest : Bytes} (h : Rest fmt n pos (c :: rest)) :
    Rest fmt n (pos+1) rest := by
  refine ⟨?_,?_,?_⟩
  · have := h.ends
    simp only [List.length_cons] at this
    omega
  · exact fun hmem => h.string (List.mem_cons_of_mem _ hmem)
  · intro i hi
    have := h.bytes (i+1) (by simpa using hi)
    simpa [Nat.add_assoc,Nat.add_comm 1 i] using this

/-- What is left of the scan from one of the three modes. -/
structure Scanned (fmt : ℕ → UInt8) (n pos : ℕ) (rest : Bytes) : Prop where
  text : ∀ args con, args.map Arg.kind = wanted false rest →
    (Ends fmt n ⟨pos,.text,args,con⟩ ↔ cutOff false rest = false)
  flag : ∀ args con, args.map Arg.kind = wanted true rest →
    (Ends fmt n ⟨pos,.flag,args,con⟩ ↔ cutOff true rest = false)
  width : ∀ zeroPad w args con, args.map Arg.kind = wanted true rest →
    (Ends fmt n ⟨pos,.width zeroPad w,args,con⟩ ↔ cutOff true rest = false)

theorem isDigit_zero_char : isDigit 0x30 = true := by decide
theorem isDigit_nul : isDigit 0 = false := by decide

theorem scanned_nil {fmt : ℕ → UInt8} {n pos : ℕ} (h : Rest fmt n pos []) : Scanned fmt n pos [] := by
  have hc : fmt pos = 0 := h.head
  have hn : n < pos+1 := by
    have := h.ends
    simp only [List.length_nil] at this
    omega
  -- the conversion letter is the NUL: the default branch prints it and steps over it
  have hwidth : ∀ zeroPad w args con, ¬ Ends fmt n ⟨pos,.width zeroPad w,args,con⟩ := by
    intro zeroPad w args con
    have hnone : args.map Arg.kind = specKind 0++args.map Arg.kind := rfl
    obtain ⟨args',con',hconv,-⟩ := convert_matching zeroPad w con hnone
    rw [ends_next ⟨pos+1,.text,args',con'⟩ (by simp [scanByte,hc,isDigit_nul,hconv]) h.le]
    exact not_ends_beyond hn
  refine ⟨?_,?_,?_⟩
  · intro args con _
    have hlast : scanByte (fmt pos) ⟨pos,.text,args,con⟩ = .finished con := by simp [scanByte,hc]
    exact iff_of_true (ends_finished hlast h.le) rfl
  · intro args con _
    rw [ends_next ⟨pos,.width false 0,args,con⟩ (by simp [scanByte,hc]) h.le]
    exact iff_of_false (hwidth _ _ _ _) (by simp [cutOff])
  · intro zeroPad w args con _
    exact iff_of_false (hwidth _ _ _ _) (by simp [cutOff])

theorem scanned_cons {fmt : ℕ → UInt8} {n pos : ℕ} {c : UInt8} {rest : Bytes} (h : Rest fmt n pos (c :: rest))
    (ih : Scanned fmt n (pos+1) rest) : Scanned fmt n pos (c :: rest) := by
  have hc : fmt pos = c := h.head
  have hc0 : c ≠ 0 := fun h0 => h.string (h0 ▸ List.mem_cons_self)
  have hwidth : ∀ zeroPad w args con, args.map Arg.kind = wanted true (c :: rest) →
      (Ends fmt n ⟨pos,.width zeroPad w,args,con⟩ ↔ cutOff true (c :: rest) = false) := by
    intro zeroPad w args con hargs
    cases hd : isDigit c with
    | true =>
      simp only [wanted,hd,↓reduceIte] at hargs
      rw [ends_next ⟨pos+1,.width zeroPad (toInt (w*10+((c.toNat : ℤ)-0x30))),args,con⟩
        (by simp [scanByte,hc,hd]) h.le,ih.width _ _ _ _ hargs,cutOff,hd]
    | false =>
      simp only [wanted,hd,Bool.false_eq_true,↓reduceIte] at hargs
      obtain ⟨args',con',hconv,hargs'⟩ := convert_matching zeroPad w con hargs
      rw [ends_next ⟨pos+1,.text,args',con'⟩ (by simp [scanByte,hc,hd,hconv]) h.le,
        ih.text _ _ hargs',cutOff,hd]
  refine ⟨?_,?_,hwidth⟩
  · intro args con hargs
    by_cases hp : c = 0x25
    · simp only [wanted,hp,decide_true] at hargs
      rw [ends_next ⟨pos+1,.flag,args,con⟩ (by simp [scanByte,hc,hp]) h.le,ih.flag _ _ hargs,
        cutOff,decide_eq_true hp]
    · simp only [wanted,hp,decide_false] at hargs
      rw [ends_next ⟨pos+1,.text,args,vgaPutchar c con⟩ (by simp [scanByte,hc,hp,hc0]) h.le,
        ih.text _ _ hargs,cutOff,decide_eq_false hp]
  · intro args con hargs
    by_cases hz : c = 0x30
    · subst hz
      simp only [wanted,isDigit_zero_char,↓reduceIte] at hargs
      rw [ends_next ⟨pos+1,.width true 0,args,con⟩ (by simp [scanByte,hc]) h.le,
        ih.width _ _ _ _ hargs,cutOff,isDigit_zero_char]
    · rw [ends_next ⟨pos,.width false 0,args,con⟩ (by simp [scanByte,hc,hz]) h.le,
        hwidth _ _ _ _ hargs]

theorem scanned {fmt : ℕ → UInt8} {n : ℕ} (rest : Bytes) (pos : ℕ) (h : Rest fmt n pos rest) : Scanned fmt n pos rest := by
  induction rest generalizing pos with
  | nil => exact scanned_nil h
  | cons c rest ih => exact scanned_cons h (ih (pos+1) h.tail)

theorem Holds.rest {fmt : ℕ → UInt8} {s : Bytes} (h : Holds fmt s) : Rest fmt s.length 0 s :=
  ⟨Nat.zero_add _,h.string,fun i hi => by simpa using h.bytes i hi⟩

/-- The scanner stays inside of its format unless the format ends inside a conversion. -/
theorem printf_inside_iff (fmt : ℕ → UInt8) (s : Bytes) (args : List Arg) (con : Console) (hfmt : Holds fmt s)
    (hargs : args.map Arg.kind = wanted false s) : StaysInside fmt s args con ↔ cutOff false s = false :=
  (scanned s 0 hfmt.rest).text args con hargs

/-- The format "%05u%%" in a memory of zeros. -/
theorem printf_inside_padded :
    Holds (fun i => [0x25,0x30,0x35,0x75,0x25,0x25].getD i 0) [0x25,0x30,0x35,0x75,0x25,0x25] ∧
    StaysInside (fun i => [0x25,0x30,0x35,0x75,0x25,0x25].getD i 0) [0x25,0x30,0x35,0x75,0x25,0x25] [.word 42]
      ⟨fun _ => 0,0,0,0x07,[],0⟩ :=
  ⟨⟨by decide,fun _ _ => rfl⟩,(printf_inside_iff _ _ _ _ ⟨by decide,fun _ _ => rfl⟩ rfl).mpr (by decide)⟩

/-- A format that is one percent sign, in a memory of zeros: the loop test after it reads the byte behind the NUL. -/
theorem percent_reads_beyond :
    Holds (fun i => [0x25].getD i 0) [0x25] ∧ ([] : List Arg).map Arg.kind = wanted false [0x25] ∧
    (vgaPrintf (fun i => [0x25].getD i 0) [] ⟨fun _ => 0,0,0,0x07,[],0⟩ 4).map Prod.snd = some [0,1,1,2] ∧
    ¬ StaysInside (fun i => [0x25].getD i 0) [0x25] [] ⟨fun _ => 0,0,0,0x07,[],0⟩ := by
  have hholds : Holds (fun i => [0x25].getD i 0) [0x25] := ⟨by decide,fun _ _ => rfl⟩
  refine ⟨hholds,rfl,rfl,?_⟩
  intro hstays
  have := ((scanned _ 0 hholds.rest).text [] _ rfl).mp hstays
  simp [cutOff] at this

end VesperOS.Printf
