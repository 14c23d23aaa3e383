import VesperOS.Console.Printf

/-! # The cursor and the cells

All calls of `vga.c` in any order, from the zeroed variables of the kernel image on. A call
of `vga_printf` takes one step for each byte of its format, so a run may also stand inside of
one, and one that never ends is a run as well.
-/
namespace VesperOS.ScreenBounds
open Vga Printf

/-! ## The other calls of `vga.c` -/

def makeColor (fg bg : UInt8) : UInt8 := fg ||| (bg <<< 4)

def vgaSetColor (fg bg : UInt8) (con : Console) : Console := { con with color := makeColor fg bg }

def vgaClear (con : Console) : Console :=
  let con := (List.range vgaRows).foldl (fun con row =>
    (List.range vgaCols).foldl (fun con col => con.write (row*vgaCols+col) (vgaEntry 0x20 con.color)) con) con
  { con with row := 0, col := 0 }

def vgaInit (con : Console) : Console := vgaClear { con with row := 0, col := 0, color := makeColor 7 0 }

def vgaSetCursor (row col : ℤ) (con : Console) : Console :=
  if 0 ≤ row ∧ row < vgaRows ∧ 0 ≤ col ∧ col < vgaCols then { con with row := row.toNat, col := col.toNat } else con

/-- The digit of four bits, upper case. -/
def hexDigit (nibble : UInt32) : UInt8 := if nibble < 10 then 0x30+nibble.toUInt8 else 0x41+(nibble-10).toUInt8

def vgaPrintHex (n : UInt32) (con : Console) : Console :=
  ([28,24,20,16,12,8,4,0] : List UInt32).foldl (fun con shift => vgaPutchar (hexDigit ((n >>> shift) &&& 0xF)) con)
    (vgaPuts [0x30,0x78] con)

/-! ## Runs -/

/-- Between two calls, or inside of a `vga_printf`. -/
inductive State where
  | idle (con : Console)
  | printing (fmt : ℕ → UInt8) (s : Scanner)

def State.con : State → Console
  | .idle con => con
  | .printing _ s => s.con

theorem State.con_idle (con : Console) : (State.idle con).con = con := rfl

inductive Step : State → State → Prop
  | init (con : Console) : Step (.idle con) (.idle (vgaInit con))
  | clear (con : Console) : Step (.idle con) (.idle (vgaClear con))
  | setColor (fg bg : UInt8) (con : Console) : Step (.idle con) (.idle (vgaSetColor fg bg con))
  | setCursor (row col : ℤ) (con : Console) : Step (.idle con) (.idle (vgaSetCursor row col con))
  | putchar (c : UInt8) (con : Console) : Step (.idle con) (.idle (vgaPutchar c con))
  | puts (str : List UInt8) (con : Console) : Step (.idle con) (.idle (vgaPuts str con))
  | printUint (n : UInt32) (con : Console) : Step (.idle con) (.idle (vgaPrintUint n con))
  | printHex (n : UInt32) (con : Console) : Step (.idle con) (.idle (vgaPrintHex n con))
  | printf (fmt : ℕ → UInt8) (args : List Arg) (con : Console) :
      Step (.idle con) (.printing fmt ⟨0,.text,args,con⟩)
  | turn {fmt : ℕ → UInt8} {s s' : Scanner} : scanByte (fmt s.pos) s = .next s' →
      Step (.printing fmt s) (.printing fmt s')
  | finish {fmt : ℕ → UInt8} {s : Scanner} {con : Console} : scanByte (fmt s.pos) s = .finished con →
      Step (.printing fmt s) (.idle con)

/-- `vga_row`, `vga_col` and `vga_color` start as zero, the video memory as anything. -/
def start (cells : ℕ → UInt16) : State := .idle ⟨cells,0,0,0,[],0⟩

def Reached (cells : ℕ → UInt16) (st : State) : Prop := Relation.ReflTransGen Step (start cells) st

/-- Every index of `vga_buffer` that was read or written. -/
def Inside (con : Console) : Prop := ∀ i ∈ con.touched, i < 2000

structure Bounded (con : Console) : Prop where
  onScreen : OnScreen con
  inside : Inside con

/-! ## Indices -/

theorem Inside.write {con : Console} (h : Inside con) {j : ℕ} (hj : j < 2000) (x : UInt16) : Inside (con.write j x) := by
  intro i hi
  rcases List.mem_append.mp hi with hi | hi
  · exact h i hi
  · obtain rfl := List.mem_singleton.mp hi
    exact hj

theorem Inside.copy {con : Console} (h : Inside con) {src dst : ℕ} (hs : src < 2000) (hd : dst < 2000) :
    Inside (con.copy src dst) := by
  intro i hi
  rcases List.mem_append.mp hi with hi | hi
  · exact h i hi
  · simp only [List.mem_cons,List.not_mem_nil,or_false] at hi
    rcases hi with rfl | rfl
    · exact hs
    · exact hd

theorem cell_lt {row col : ℕ} (hr : row < vgaRows) (hc : col < vgaCols) : row*vgaCols+col < 2000 := by
  unfold vgaRows at hr
  unfold vgaCols at hc ⊢
  omega

theorem inside_row {f : ℕ → Console → Console} (hf : ∀ col < vgaCols, ∀ con, Inside con → Inside (f col con))
    {con : Console} (h : Inside con) : Inside ((List.range vgaCols).foldl (fun con col => f col con) con) :=
  List.foldlRecOn (motive := Inside) _ _ h fun con hcon col hcol => hf col (List.mem_range.mp hcol) con hcon

/-- The loops over rows and columns. -/
theorem inside_rows {f : ℕ → ℕ → Console → Console} {n : ℕ}
    (hf : ∀ row < n, ∀ col < vgaCols, ∀ con, Inside con → Inside (f row col con)) {con : Console} (h : Inside con) :
    Inside ((List.range n).foldl (fun con row => (List.range vgaCols).foldl (fun con col => f row col con) con) con) :=
  List.foldlRecOn (motive := Inside) _ _ h fun _ hcon row hrow => inside_row (hf row (List.mem_range.mp hrow)) hcon

theorem Inside.vgaScroll {con : Console} (h : Inside con) : Inside (vgaScroll con) := by
  have hrows := inside_rows (f := fun row col con => con.copy ((row+1)*vgaCols+col) (row*vgaCols+col))
    (n := vgaRows-1) (fun row hrow col hcol con hcon =>
      hcon.copy (cell_lt (by omega) hcol) (cell_lt (by omega) hcol)) h
  have hblank := inside_row (f := fun col con => con.write ((vgaRows-1)*vgaCols+col) (vgaEntry 0x20 con.color))
    (fun col hcol con hcon => hcon.write (cell_lt (by decide) hcol) (vgaEntry 0x20 con.color)) hrows
  unfold Inside Vga.vgaScroll
  dsimp only
  exact hblank

theorem Inside.vgaClear {con : Console} (h : Inside con) : Inside (vgaClear con) := by
  have hrows := inside_rows (f := fun row col con => con.write (row*vgaCols+col) (vgaEntry 0x20 con.color))
    (n := vgaRows) (fun row hrow col hcol con hcon => hcon.write (cell_lt hrow hcol) (vgaEntry 0x20 con.color)) h
  unfold Inside ScreenBounds.vgaClear
  dsimp only
  exact hrows

theorem Inside.settle {con : Console} (h : Inside con) : Inside (settle con) := by
  have hwrap : Inside (if vgaCols ≤ con.col then { con with col := 0, row := con.row+1 } else con) := by
    split
    · exact h
    · exact h
  have hscroll (con : Console) (hcon : Inside con) : Inside (if vgaRows ≤ con.row then Vga.vgaScroll con else con) := by
    split
    · exact hcon.vgaScroll
    · exact hcon
  exact hscroll _ hwrap

theorem Bounded.emit {con : Console} (h : Bounded con) (c : UInt8) : Inside (emit c con) := by
  have hrow : con.row < vgaRows := h.onScreen.row_lt
  have hcol : con.col < vgaCols := h.onScreen.col_lt
  have hleft : con.col-1 < vgaCols := by omega
  unfold Vga.emit
  split_ifs
  · exact h.inside
  · exact h.inside
  · have hback : Inside { con with col := con.col-1 } := h.inside
    exact hback.write (cell_lt hrow hleft) _
  · exact h.inside
  · exact h.inside.write (cell_lt hrow hcol) (vgaEntry c con.color)

/-! ## Calls -/

theorem Bounded.putchar {con : Console} (h : Bounded con) (c : UInt8) : Bounded (vgaPutchar c con) :=
  ⟨h.onScreen.putchar c,(h.emit c).settle⟩

theorem Bounded.puts {con : Console} (h : Bounded con) (str : List UInt8) : Bounded (vgaPuts str con) :=
  List.foldlRecOn (motive := Bounded) str _ h fun _ hcon c _ => hcon.putchar c

theorem Bounded.clear {con : Console} (h : Inside con) : Bounded (vgaClear con) :=
  ⟨⟨Nat.succ_pos 24,Nat.succ_pos 79⟩,h.vgaClear⟩

theorem Bounded.setCursor {con : Console} (h : Bounded con) (row col : ℤ) : Bounded (vgaSetCursor row col con) := by
  unfold vgaSetCursor
  split
  · rename_i hin
    unfold vgaRows vgaCols at hin
    exact ⟨⟨by dsimp only; omega,by dsimp only; omega⟩,h.inside⟩
  · exact h

theorem Bounded.printHex {con : Console} (h : Bounded con) (n : UInt32) : Bounded (vgaPrintHex n con) :=
  List.foldlRecOn (motive := Bounded) _ _ (h.puts _) fun _ hcon _ _ => hcon.putchar _

theorem Bounded.default {con : Console} (h : Bounded con) (spec : UInt8) (zeroPad : Bool) (width : ℤ) : Bounded
    (vgaPutchar spec (if 0 < width then vgaPutchar (UInt8.ofNat (0x30+(width % 10).toNat))
      (if zeroPad then vgaPutchar 0x30 (vgaPutchar 0x25 con) else vgaPutchar 0x25 con)
      else if zeroPad then vgaPutchar 0x30 (vgaPutchar 0x25 con) else vgaPutchar 0x25 con)) := by
  apply Bounded.putchar
  have hflag : Bounded (if zeroPad then vgaPutchar 0x30 (vgaPutchar 0x25 con) else vgaPutchar 0x25 con) := by
    split
    · exact (h.putchar _).putchar _
    · exact h.putchar _
  split
  · exact hflag.putchar _
  · exact hflag

/-- A conversion prints characters and nothing else. -/
theorem Bounded.convert {spec : UInt8} {zeroPad : Bool} {width : ℤ} {args args' : List Arg} {con con' : Console}
    (h : Bounded con) (hc : convert spec zeroPad width args con = some (args',con')) : Bounded con' := by
  unfold Printf.convert at hc
  split at hc
  · split at hc
    · cases hc
      exact h.putchar _
    · cases hc
  · split at hc
    · split at hc
      · cases hc
        exact h.puts _
      · cases hc
    · split at hc
      · split at hc
        · split at hc
          · cases hc
            exact (h.putchar 0x2D).puts _
          · cases hc
            exact h.puts _
        · cases hc
      · split at hc
        · split at hc
          · cases hc
            exact h.puts _
          · cases hc
        · split at hc
          · split at hc
            · cases hc
              exact h.puts _
            · cases hc
          · split at hc
            · cases hc
              exact h.putchar _
            · cases hc
              exact h.default spec zeroPad width

theorem Bounded.scanByte {c : UInt8} {s s' : Scanner} (h : Bounded s.con) (hs : scanByte c s = .next s') :
    Bounded s'.con := by
  unfold Printf.scanByte at hs
  split at hs
  · split at hs
    · cases hs
    · split at hs
      · cases hs
        exact h.putchar c
      · cases hs
        exact h
  · split at hs
    · cases hs
      exact h
    · cases hs
      exact h
  · split at hs
    · cases hs
      exact h
    · split at hs
      · cases hs
      · rename_i hconv
        cases hs
        exact h.convert hconv

theorem scanByte_finished {c : UInt8} {s : Scanner} {con : Console} (hs : scanByte c s = .finished con) : con = s.con := by
  unfold Printf.scanByte at hs
  split at hs
  · split at hs
    · cases hs
      rfl
    · split at hs <;> cases hs
  · split at hs <;> cases hs
  · split at hs
    · cases hs
    · split at hs <;> cases hs

/-! ## Any order of calls -/

theorem Bounded.step {st st' : State} (h : Bounded st.con) (hs : Step st st') : Bounded st'.con := by
  cases hs with
  | init con => exact .clear h.inside
  | clear con => exact .clear h.inside
  | setColor fg bg con => exact ⟨⟨h.onScreen.row_lt,h.onScreen.col_lt⟩,h.inside⟩
  | setCursor row col con => exact h.setCursor row col
  | putchar c con => exact h.putchar c
  | puts str con => exact h.puts str
  | printUint n con => exact h.puts _
  | printHex n con =>
    rw [State.con_idle] at h ⊢
    exact h.printHex n
  | printf fmt args con => exact h
  | turn hturn => exact h.scanByte hturn
  | finish hlast =>
    rw [scanByte_finished hlast]
    exact h

/-- A `vga_printf` that returns is a run. -/
theorem reached_printf {cells : ℕ → UInt16} {fmt : ℕ → UInt8} (fuel : ℕ) {s : Scanner} {con : Console} {reads : List ℕ}
    (h : Reached cells (.printing fmt s)) (hs : scan fmt fuel s = some (con,reads)) : Reached cells (.idle con) := by
  induction fuel generalizing s reads with
  | zero => cases hs
  | succ fuel ih =>
    rw [scan] at hs
    cases hturn : scanByte (fmt s.pos) s with
    | finished con' =>
      simp only [hturn,Option.some.injEq,Prod.mk.injEq] at hs
      obtain ⟨rfl,_⟩ := hs
      exact h.tail (.finish hturn)
    | next s' =>
      simp only [hturn,Option.map_eq_some_iff] at hs
      obtain ⟨⟨con',reads'⟩,hscan,he⟩ := hs
      obtain ⟨rfl,_⟩ := Prod.mk.inj he
      exact ih (h.tail (.turn hturn)) hscan
    | undefined =>
      simp only [hturn] at hs
      cases hs

/-- In every run the cursor is on the screen and all indices are those of its 2000 cells. -/
theorem screen_bounded (cells : ℕ → UInt16) (st : State) (h : Reached cells st) : Bounded st.con := by
  induction h with
  | refl => exact ⟨⟨Nat.succ_pos 24,Nat.succ_pos 79⟩,fun _ hi => absurd hi List.not_mem_nil⟩
  | tail _ hs ih => exact ih.step hs

/-- A newline and a character after the cursor was put into the last cell. -/
theorem screen_bounded_lastCell : ∃ st, Reached (fun _ => 0) st ∧ Bounded st.con ∧
    ∃ con, st = .idle (vgaPutchar 0x41 (vgaPutchar 0x0A con)) ∧ con.row = 24 ∧ con.col = 79 := by
  have hset : Reached (fun _ => 0) (.idle (vgaSetCursor 24 79 ⟨fun _ => 0,0,0,0,[],0⟩)) := .single (.setCursor 24 79 _)
  have hrun := (hset.tail (.putchar 0x0A _)).tail (.putchar 0x41 _)
  have hcursor : vgaSetCursor 24 79 ⟨fun _ => 0,0,0,0,[],0⟩ = ⟨fun _ => 0,24,79,0,[],0⟩ := if_pos (by decide)
  refine ⟨_,hrun,screen_bounded _ _ hrun,_,rfl,?_⟩
  rw [hcursor]
  exact ⟨rfl,rfl⟩

end VesperOS.ScreenBounds
