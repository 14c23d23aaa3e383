import Mathlib.Tactic

/-! # The text console

`vga.c`: the cursor machine over the 80 × 25 text buffer. Two fields record what the
driver itself does not keep: the indices of the buffer that were read or written, and
the number of rows that scrolling has pushed off the top. The ports of the hardware
cursor are not modelled.
-/
namespace VesperOS.Vga

def vgaCols : ℕ := 80
def vgaRows : ℕ := 25

structure Console where
  cells : ℕ → UInt16
  row : ℕ
  col : ℕ
  color : UInt8
  touched : List ℕ
  scrolled : ℕ

/-- Pack a character and a colour into a cell. -/
def vgaEntry (c color : UInt8) : UInt16 := c.toUInt16 ||| (color.toUInt16 <<< 8)

namespace Console

def write (i : ℕ) (x : UInt16) (con : Console) : Console :=
  { con with cells := Function.update con.cells i x, touched := con.touched++[i] }

/-- The assignment of one cell to another. -/
def copy (src dst : ℕ) (con : Console) : Console :=
  { con with cells := Function.update con.cells dst (con.cells src), touched := con.touched++[src,dst] }

end Console

def vgaScroll (con : Console) : Console :=
  let con := (List.range (vgaRows-1)).foldl (fun con row =>
    (List.range vgaCols).foldl (fun con col => con.copy ((row+1)*vgaCols+col) (row*vgaCols+col)) con) con
  let con := (List.range vgaCols).foldl (fun con col =>
    con.write ((vgaRows-1)*vgaCols+col) (vgaEntry 0x20 con.color)) con
  { con with row := vgaRows-1, scrolled := con.scrolled+1 }

/-- The first half of `vga_putchar`: the character, or the move that it stands for. -/
def emit (c : UInt8) (con : Console) : Console :=
  if c = 0x0A then { con with col := 0, row := con.row+1 }
  else if c = 0x0D then { con with col := 0 }
  else if c = 0x08 then
    if 0 < con.col then
      { con with col := con.col-1 }.write (con.row*vgaCols+(con.col-1)) (vgaEntry 0x20 con.color)
    else con
  else { con.write (con.row*vgaCols+con.col) (vgaEntry c con.color) with col := con.col+1 }

/-- The second half: wrap at the right edge, scroll past the last row. -/
def settle (con : Console) : Console :=
  let con := if vgaCols ≤ con.col then { con with col := 0, row := con.row+1 } else con
  if vgaRows ≤ con.row then vgaScroll con else con

def vgaPutchar (c : UInt8) (con : Console) : Console := settle (emit c con)

/-- A C string is the list of its bytes before the NUL. -/
def vgaPuts (str : List UInt8) (con : Console) : Console := str.foldl (fun con c => vgaPutchar c con) con

/-! ## Scrolling -/

section Loops
variable (con : Console)

/-- What the loops over cells leave alone. -/
structure SameCursor (con con' : Console) : Prop where
  row : con'.row = con.row
  col : con'.col = con.col
  color : con'.color = con.color
  scrolled : con'.scrolled = con.scrolled

theorem sameCursor_foldl {l : List ℕ} {f : Console → ℕ → Console} (h : ∀ con i, SameCursor con (f con i)) :
    SameCursor con (l.foldl f con) := by
  induction l generalizing con with
  | nil => exact ⟨rfl,rfl,rfl,rfl⟩
  | cons i l ih =>
    obtain ⟨h1,h2,h3,h4⟩ := h con i
    obtain ⟨h1',h2',h3',h4'⟩ := ih (f con i)
    exact ⟨h1'.trans h1,h2'.trans h2,h3'.trans h3,h4'.trans h4⟩

/-- One row of the copying loop; its source lies a row further down and is not overwritten. -/
theorem cells_copyRow (row n : ℕ) (hn : n ≤ 80) :
    ((List.range n).foldl (fun con col => con.copy ((row+1)*vgaCols+col) (row*vgaCols+col)) con).cells =
      fun i => if row*80 ≤ i ∧ i < row*80+n then con.cells (i+80) else con.cells i := by
  induction n with
  | zero =>
    funext i
    simp
  | succ n ih =>
    rw [List.range_succ,List.foldl_append,List.foldl_cons,List.foldl_nil]
    unfold Console.copy vgaCols at *
    dsimp only
    rw [ih (by omega)]
    funext i
    by_cases hi : i = row*80+n
    · subst hi
      rw [Function.update_self]
      dsimp only
      rw [if_neg (by omega),if_pos (by omega)]
      congr 1
      omega
    · rw [Function.update_of_ne hi]
      apply if_congr _ rfl rfl
      omega

theorem cells_copyRows (n : ℕ) :
    ((List.range n).foldl (fun con row =>
      (List.range vgaCols).foldl (fun con col => con.copy ((row+1)*vgaCols+col) (row*vgaCols+col)) con) con).cells =
      fun i => if i < n*80 then con.cells (i+80) else con.cells i := by
  induction n with
  | zero =>
    funext i
    simp
  | succ n ih =>
    rw [List.range_succ,List.foldl_append,List.foldl_cons,List.foldl_nil,cells_copyRow _ n vgaCols (le_refl 80)]
    funext i
    unfold vgaCols at *
    simp only [ih]
    split_ifs <;> first | rfl | omega

theorem cells_blankRow (n : ℕ) :
    ((List.range n).foldl (fun con col =>
      con.write ((vgaRows-1)*vgaCols+col) (vgaEntry 0x20 con.color)) con).cells =
      fun i => if 1920 ≤ i ∧ i < 1920+n then vgaEntry 0x20 con.color else con.cells i := by
  induction n with
  | zero =>
    funext i
    simp
  | succ n ih =>
    have hcolor := (@sameCursor_foldl con (List.range n)
      (fun con col => con.write ((vgaRows-1)*vgaCols+col) (vgaEntry 0x20 con.color)) fun con i => ⟨rfl,rfl,rfl,rfl⟩).color
    rw [List.range_succ,List.foldl_append,List.foldl_cons,List.foldl_nil]
    unfold Console.write
    dsimp only
    rw [show (vgaRows-1)*vgaCols+n = 1920+n by rfl]
    unfold Console.write at ih hcolor
    rw [ih,hcolor]
    funext i
    by_cases hi : i = 1920+n
    · subst hi
      rw [Function.update_self,if_pos (by omega)]
    · rw [Function.update_of_ne hi]
      apply if_congr _ rfl rfl
      omega

theorem sameCursor_copyRows (n : ℕ) : SameCursor con
    ((List.range n).foldl (fun con row =>
      (List.range vgaCols).foldl (fun con col => con.copy ((row+1)*vgaCols+col) (row*vgaCols+col)) con) con) :=
  sameCursor_foldl con fun con _ => sameCursor_foldl con fun _ _ => ⟨rfl,rfl,rfl,rfl⟩

theorem sameCursor_blankRow (n : ℕ) : SameCursor con
    ((List.range n).foldl (fun con col => con.write ((vgaRows-1)*vgaCols+col) (vgaEntry 0x20 con.color)) con) :=
  sameCursor_foldl con fun _ _ => ⟨rfl,rfl,rfl,rfl⟩

@[simp] theorem vgaScroll_row : (vgaScroll con).row = 24 := by
  simp only [vgaScroll,vgaRows]

@[simp] theorem vgaScroll_col : (vgaScroll con).col = con.col := by
  unfold vgaScroll
  dsimp only
  rw [(sameCursor_blankRow _ _).col,(sameCursor_copyRows con _).col]

@[simp] theorem vgaScroll_scrolled : (vgaScroll con).scrolled = con.scrolled+1 := by
  unfold vgaScroll
  dsimp only
  rw [(sameCursor_blankRow _ _).scrolled,(sameCursor_copyRows con _).scrolled]

/-- Every row moves up by one and the last one is blank. -/
theorem vgaScroll_cells : (vgaScroll con).cells = fun i =>
    if i < 1920 then con.cells (i+80) else if i < 2000 then vgaEntry 0x20 con.color else con.cells i := by
  unfold vgaScroll
  dsimp only
  rw [cells_blankRow,(sameCursor_copyRows con _).color]
  funext i
  rw [cells_copyRows]
  by_cases h1 : i < 1920
  · simp [vgaCols,vgaRows,h1,not_le.mpr h1]
  · by_cases h2 : i < 2000
    · simp [vgaCols,h1,h2,not_lt.mp h1]
    · simp [vgaCols,vgaRows,h1,h2]

end Loops

/-! ## Characters -/

/-- The character of a cell. -/
def charOf (x : UInt16) : UInt8 := x.toUInt8

theorem charOf_vgaEntry (c color : UInt8) : charOf (vgaEntry c color) = c := by
  unfold charOf vgaEntry
  apply UInt8.toBitVec_inj.mp
  simp only [UInt16.toBitVec_toUInt8,UInt16.toBitVec_or,UInt16.toBitVec_shiftLeft,UInt8.toBitVec_toUInt16]
  ext i hi
  simp

/-! ## The page behind the screen

The screen is a window of 25 rows on a page without end. Scrolling moves the window, so a
place of the page keeps its character while it can be seen.
-/

/-- The place of the cursor on the page. -/
def place (con : Console) : ℕ := 80*(con.scrolled+con.row)+con.col

/-- The character at a place in the window. -/
def shown (con : Console) (a : ℕ) : UInt8 := charOf (con.cells (a-80*con.scrolled))

structure OnScreen (con : Console) : Prop where
  row_lt : con.row < 25
  col_lt : con.col < 80

/-- Not a control character of `vga_putchar`. -/
def Plain (c : UInt8) : Prop := c ≠ 0x0A ∧ c ≠ 0x0D ∧ c ≠ 0x08

/-- One plain character printed. -/
structure Printed (c : UInt8) (con con' : Console) : Prop where
  onScreen : OnScreen con'
  place : place con' = place con+1
  window : con'.scrolled = con.scrolled ∨ con'.scrolled = con.scrolled+1 ∧ 80*(con'.scrolled+24) = Vga.place con'
  here : shown con' (Vga.place con) = c
  other : ∀ a, a ≠ Vga.place con → 80*con'.scrolled ≤ a → a < 80*(con.scrolled+25) → shown con' a = shown con a

theorem settle_inside {con : Console} (hcol : con.col < 80) (hrow : con.row < 25) : settle con = con := by
  have h1 : ¬ vgaCols ≤ con.col := not_le.mpr hcol
  have h2 : ¬ vgaRows ≤ con.row := not_le.mpr hrow
  unfold settle
  simp only [if_neg h1,if_neg h2]

theorem settle_wrap {con : Console} (hcol : 80 ≤ con.col) (hrow : con.row < 24) :
    settle con = { con with col := 0, row := con.row+1 } := by
  have h1 : vgaCols ≤ con.col := hcol
  have h2 : ¬ vgaRows ≤ con.row+1 := not_le.mpr (Nat.succ_lt_succ hrow)
  unfold settle
  simp only [if_pos h1,if_neg h2]

theorem settle_scroll {con : Console} (hcol : 80 ≤ con.col) (hrow : 24 ≤ con.row) :
    settle con = vgaScroll { con with col := 0, row := con.row+1 } := by
  have h1 : vgaCols ≤ con.col := hcol
  have h2 : vgaRows ≤ con.row+1 := Nat.succ_le_succ hrow
  unfold settle
  simp only [if_pos h1,if_pos h2]

theorem emit_plain {c : UInt8} (hc : Plain c) (con : Console) :
    emit c con = { con.write (con.row*vgaCols+con.col) (vgaEntry c con.color) with col := con.col+1 } := by
  unfold emit
  rw [if_neg hc.1,if_neg hc.2.1,if_neg hc.2.2]

theorem shown_write (con : Console) (i : ℕ) (x : UInt16) (a : ℕ) :
    shown (con.write i x) a = if a-80*con.scrolled = i then charOf x else shown con a := by
  unfold shown Console.write
  dsimp only
  by_cases h : a-80*con.scrolled = i
  · rw [if_pos h,h,Function.update_self]
  · rw [if_neg h,Function.update_of_ne h]

/-- The window moves by one row over the page. -/
theorem shown_vgaScroll (con : Console) {a : ℕ} (h : 80*(con.scrolled+1) ≤ a) (hlt : a < 80*(con.scrolled+26)) :
    shown (vgaScroll con) a = if a < 80*(con.scrolled+25) then shown con a else 0x20 := by
  unfold shown
  rw [vgaScroll_scrolled,vgaScroll_cells]
  by_cases hin : a < 80*(con.scrolled+25)
  · have hi : a-80*(con.scrolled+1) < 1920 := by omega
    simp only [if_pos hin,if_pos hi]
    congr 2
    omega
  · have hi : ¬ a-80*(con.scrolled+1) < 1920 := by omega
    have hi' : a-80*(con.scrolled+1) < 2000 := by omega
    simp only [if_neg hin,if_neg hi,if_pos hi']
    exact charOf_vgaEntry _ _

/-- The character in its cell, before the cursor settles. -/
theorem shown_emit {c : UInt8} (hc : Plain c) (con : Console) {a : ℕ} (ha : 80*con.scrolled ≤ a) :
    shown (emit c con) a = if a = place con then c else shown con a := by
  rw [emit_plain hc]
  change shown (con.write _ _) a = _
  rw [shown_write,charOf_vgaEntry]
  apply if_congr _ rfl rfl
  unfold place vgaCols
  omega

/-- `shown` depends on the cells and the window only. -/
theorem shown_move (con : Console) (row col : ℕ) (a : ℕ) : shown { con with row := row, col := col } a = shown con a := rfl

theorem printed_plain {c : UInt8} (hc : Plain c) {con : Console} (h : OnScreen con) :
    Printed c con (vgaPutchar c con) := by
  obtain ⟨hrow,hcol⟩ := h
  have hrow' : (emit c con).row = con.row := by rw [emit_plain hc]; rfl
  have hcol' : (emit c con).col = con.col+1 := by rw [emit_plain hc]
  have hscrolled : (emit c con).scrolled = con.scrolled := by rw [emit_plain hc]; rfl
  have hbase : 80*con.scrolled ≤ place con := by unfold place; omega
  unfold vgaPutchar
  by_cases hedge : con.col+1 < 80
  · rw [settle_inside (by omega) (by omega)]
    constructor
    · exact ⟨by omega,by omega⟩
    · unfold place
      omega
    · exact Or.inl hscrolled
    · rw [shown_emit hc con hbase,if_pos rfl]
    · intro a hne hlo _
      rw [shown_emit hc con (by omega),if_neg hne]
  · by_cases hlast : con.row < 24
    · rw [settle_wrap (by omega) (by omega)]
      constructor
      · exact ⟨by dsimp only; omega,by dsimp only; omega⟩
      · unfold place
        dsimp only
        omega
      · exact Or.inl hscrolled
      · rw [shown_move,shown_emit hc con hbase,if_pos rfl]
      · intro a hne hlo _
        dsimp only at hlo
        rw [shown_move,shown_emit hc con (by omega),if_neg hne]
    · have hplace : place con = 80*(con.scrolled+24)+79 := by
        unfold place
        omega
      rw [settle_scroll (by omega) (by omega)]
      -- the last cell of the screen: the character moves up with its row
      have hmoved (a : ℕ) (hlo : 80*(con.scrolled+1) ≤ a) (hhi : a < 80*(con.scrolled+26)) :
          shown (vgaScroll { emit c con with col := 0, row := (emit c con).row+1 }) a =
            if a < 80*(con.scrolled+25) then (if a = place con then c else shown con a) else 0x20 := by
        rw [shown_vgaScroll _ (by dsimp only; omega) (by dsimp only; omega),shown_move,
          shown_emit hc con (by omega),hscrolled]
      constructor
      · exact ⟨by simp,by simp⟩
      · rw [hplace]
        unfold place
        rw [vgaScroll_row,vgaScroll_col,vgaScroll_scrolled]
        dsimp only
        omega
      · right
        unfold place
        rw [vgaScroll_row,vgaScroll_col,vgaScroll_scrolled]
        exact ⟨congrArg (·+1) hscrolled,rfl⟩
      · rw [hmoved _ (by omega) (by omega),if_pos (by omega),if_pos rfl]
      · intro a hne hlo hhi
        rw [vgaScroll_scrolled] at hlo
        dsimp only at hlo
        rw [hmoved a (by omega) (by omega),if_pos hhi,if_neg hne]

/-- One character taken back. -/
structure Erased (con con' : Console) : Prop where
  onScreen : OnScreen con'
  place : Vga.place con' + 1 = Vga.place con
  scrolled : con'.scrolled = con.scrolled
  here : shown con' (Vga.place con') = 0x20
  other : ∀ a, a ≠ Vga.place con' → 80*con.scrolled ≤ a → shown con' a = shown con a

/-- Backspace does nothing in column 0. -/
theorem backspace_edge {con : Console} (h : OnScreen con) (hcol : con.col = 0) : vgaPutchar 0x08 con = con := by
  have hemit : emit 0x08 con = con := by
    unfold emit
    rw [if_neg (by decide),if_neg (by decide),if_pos rfl,if_neg (by omega)]
  unfold vgaPutchar
  rw [hemit,settle_inside h.col_lt h.row_lt]

theorem erased_backspace {con : Console} (h : OnScreen con) (hcol : 0 < con.col) : Erased con (vgaPutchar 0x08 con) := by
  obtain ⟨hrow,hlt⟩ := h
  have hemit : emit 0x08 con =
      { con with col := con.col-1 }.write (con.row*vgaCols+(con.col-1)) (vgaEntry 0x20 con.color) := by
    unfold emit
    rw [if_neg (by decide),if_neg (by decide),if_pos rfl,if_pos hcol]
  have hrow' : (emit 0x08 con).row = con.row := by rw [hemit]; rfl
  have hcol' : (emit 0x08 con).col = con.col-1 := by rw [hemit]; rfl
  have hscrolled : (emit 0x08 con).scrolled = con.scrolled := by rw [hemit]; rfl
  have hshown (a : ℕ) : shown (emit 0x08 con) a =
      if a-80*con.scrolled = con.row*vgaCols+(con.col-1) then 0x20 else shown con a := by
    rw [hemit,shown_write,charOf_vgaEntry]
    rfl
  unfold vgaPutchar
  rw [settle_inside (by omega) (by omega)]
  constructor
  · exact ⟨by omega,by omega⟩
  · unfold place
    omega
  · exact hscrolled
  · rw [hshown,if_pos]
    unfold place vgaCols
    omega
  · intro a hne hlo
    rw [hshown,if_neg]
    unfold place at hne
    unfold vgaCols
    omega

/-! ## The cursor stays on the screen -/

theorem onScreen_settle {con : Console} (hcol : con.col ≤ 80) (hrow : con.row ≤ 25) : OnScreen (settle con) := by
  by_cases h1 : con.col < 80
  · by_cases h2 : con.row < 25
    · rw [settle_inside h1 h2]
      exact ⟨h2,h1⟩
    · have hc : ¬ vgaCols ≤ con.col := not_le.mpr h1
      have hr : vgaRows ≤ con.row := not_lt.mp h2
      unfold settle
      simp only [if_neg hc,if_pos hr]
      exact ⟨by rw [vgaScroll_row]; decide,by rw [vgaScroll_col]; exact h1⟩
  · by_cases h2 : con.row < 24
    · rw [settle_wrap (by omega) h2]
      exact ⟨by dsimp only; omega,by dsimp only; omega⟩
    · rw [settle_scroll (by omega) (by omega)]
      exact ⟨by rw [vgaScroll_row]; decide,by rw [vgaScroll_col]; dsimp only; omega⟩

theorem OnScreen.putchar {con : Console} (h : OnScreen con) (c : UInt8) : OnScreen (vgaPutchar c con) := by
  obtain ⟨hrow,hcol⟩ := h
  unfold vgaPutchar emit
  split_ifs
  · exact onScreen_settle (by dsimp only; omega) (by dsimp only; omega)
  · exact onScreen_settle (by dsimp only; omega) (by dsimp only; omega)
  · exact onScreen_settle (by dsimp only [Console.write]; omega) (by dsimp only [Console.write]; omega)
  · exact onScreen_settle (by omega) (by omega)
  · exact onScreen_settle (by dsimp only; omega) (by dsimp only [Console.write]; omega)

theorem OnScreen.puts {con : Console} (h : OnScreen con) (str : List UInt8) : OnScreen (vgaPuts str con) := by
  induction str generalizing con with
  | nil => exact h
  | cons c str ih => exact ih (h.putchar c)

end VesperOS.Vga
