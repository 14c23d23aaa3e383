import VesperOS.Shell.ReadLine

/-! # The edited line on the screen

`read_line` draws every change of its line with `vga_putchar` alone. Typing and recall
print onto the page; Backspace takes back one character but stops at the left edge of the
screen, so a line that has wrapped onto a new row cannot be taken back over that edge.
-/
namespace VesperOS.ScreenLine
open ByteMemory VesperFs StoredNames Vga ReadLine

/-! ## Histories of the shell -/

/-- `shell_run` pushes the lines that `read_line` returns. -/
inductive ShellHistory : History → Prop
  | boot : ShellHistory ⟨fun _ _ => 0,0⟩
  | line {h : History} {buf : Mem} {con : Console} {keys rest : List UInt8} {s : LineState} : ShellHistory h →
      readLine h shellBufSize keys (.start buf con) = .returned s rest → ShellHistory (historyPush s.buf h)

def Printable (line : Bytes) : Prop := ∀ c ∈ line, 0x20 ≤ c ∧ c < 0x80

theorem Printable.plain {line : Bytes} (h : Printable line) {c : UInt8} (hc : c ∈ line) : Plain c := by
  obtain ⟨h1,_⟩ := h c hc
  refine ⟨?_,?_,?_⟩ <;> rintro rfl <;> exact absurd h1 (by decide)

theorem printable_edit {cmds : List Bytes} (hc : ∀ cmd ∈ cmds, Printable cmd) {d : Draft} (hd : Printable d.line)
    (c : UInt8) : Printable (editKey cmds d c).line := by
  obtain ⟨line,pos⟩ := d
  unfold editKey
  split_ifs
  · exact fun b hb => hd b (List.dropLast_subset _ hb)
  · dsimp only
    cases hcmd : cmds[pos]? with
    | none => exact hd
    | some cmd => exact hc cmd (List.mem_of_getElem? hcmd)
  · dsimp only
    match pos with
    | 0 => exact hd
    | 1 => exact fun b hb => absurd hb List.not_mem_nil
    | k+2 =>
      dsimp only
      rw [List.getD_eq_getElem?_getD]
      cases hcmd : cmds[k]? with
      | none => exact fun b hb => absurd hb List.not_mem_nil
      | some cmd => exact hc cmd (List.mem_of_getElem? hcmd)
  · intro b hb
    rcases List.mem_append.mp hb with hb | hb
    · exact hd b hb
    · obtain rfl := List.mem_singleton.mp hb
      assumption
  · exact hd
  · exact hd

theorem length_edit {h : History} {d : Draft} (hd : d.line.length ≤ 255) (c : UInt8) :
    (editKey (entries h) d c).line.length ≤ 255 := by
  have hcmds (cmd : Bytes) (hmem : cmd ∈ entries h) : cmd.length ≤ 255 := by
    obtain ⟨k,_,rfl⟩ := List.mem_map.mp hmem
    exact length_cString _ _ _
  obtain ⟨line,pos⟩ := d
  unfold editKey
  split_ifs with _ _ _ _ hroom
  · dsimp only at hd ⊢
    rw [List.length_dropLast]
    omega
  · dsimp only
    cases hcmd : (entries h)[pos]? with
    | none => exact hd
    | some cmd => exact hcmds cmd (List.mem_of_getElem? hcmd)
  · dsimp only
    match pos with
    | 0 => exact hd
    | 1 => exact Nat.zero_le _
    | k+2 =>
      dsimp only
      rw [List.getD_eq_getElem?_getD]
      cases hcmd : (entries h)[k]? with
      | none => exact Nat.zero_le _
      | some cmd => exact hcmds cmd (List.mem_of_getElem? hcmd)
  · unfold shellBufSize at hroom
    dsimp only at hroom ⊢
    rw [List.length_append,List.length_singleton]
    omega
  · exact hd
  · exact hd

/-- The line that `read_line` returns is one that the keys make. -/
theorem returned_line {h : History} {keys rest : List UInt8} {s s' : LineState} {d : Draft} (hf : Follows h s d)
    (hlen : d.line.length ≤ 255) (hr : readLine h shellBufSize keys s = .returned s' rest) :
    ∃ pre : List UInt8, cString s'.buf 0 shellBufSize = (pre.foldl (editKey (entries h)) d).line := by
  induction keys generalizing s d with
  | nil =>
    rw [readLine] at hr
    split at hr
    · cases hr
    · cases hr
      exact ⟨[],cString_finish hf hlen⟩
  | cons c keys ih =>
    rw [readLine] at hr
    split at hr
    · rename_i hlt
      split at hr
      · cases hr
        exact ⟨[],cString_finish ⟨hf.len,hf.text,hf.nonzero,hf.pos,hf.known⟩ hlen⟩
      · have hroom : d.line.length < 255 := hf.len.symm.trans_lt hlt
        obtain ⟨pre,hpre⟩ := ih (hf.key hroom c) (length_edit hlen c) hr
        exact ⟨c :: pre,hpre⟩
    · cases hr
      exact ⟨[],cString_finish hf hlen⟩

theorem printable_edits {cmds : List Bytes} (hc : ∀ cmd ∈ cmds, Printable cmd) {d : Draft} (hd : Printable d.line)
    (keys : List UInt8) : Printable (keys.foldl (editKey cmds) d).line := by
  induction keys generalizing d with
  | nil => exact hd
  | cons c keys ih => exact ih (printable_edit hc hd c)

theorem cString_subset (m : Mem) (a n : ℕ) : cString m a n ⊆ cString m a (n+1) := by
  induction n generalizing a with
  | zero => exact List.nil_subset _
  | succ n ih =>
    rw [cString,cString]
    split
    · exact List.nil_subset _
    · exact List.cons_subset_cons _ (ih (a+1))

/-- Commands consist of printable characters. -/
theorem ShellHistory.printable {h : History} (hh : ShellHistory h) : ∀ cmd ∈ entries h, Printable cmd := by
  induction hh with
  | boot =>
    intro cmd hcmd
    cases hcmd
  | @line h buf con keys rest s _ hr ih =>
    by_cases h0 : s.buf 0 = 0
    · rw [historyPush,if_pos h0]
      exact ih
    · rw [entries_push h0]
      intro cmd hcmd
      rcases List.mem_cons.mp (List.mem_of_mem_take hcmd) with rfl | hcmd
      · obtain ⟨pre,hpre⟩ := returned_line (follows_start h buf con) (Nat.zero_le _) hr
        have hline : Printable (cString s.buf 0 shellBufSize) := by
          rw [hpre]
          exact printable_edits ih (fun b hb => absurd hb List.not_mem_nil) pre
        exact fun c hc => hline c (cString_subset _ _ _ hc)
      · exact ih cmd hcmd

/-! ## A line on the page -/

/-- The line stands on the page from `start` on with the cursor behind it, and everything from there up to `high`
is blank. -/
structure OnPage (start high : ℕ) (line : Bytes) (con : Console) : Prop where
  onScreen : OnScreen con
  cursor : place con = start+line.length
  window : 80*con.scrolled ≤ start
  text : ∀ i < line.length, shown con (start+i) = line.getD i 0
  length_le : start+line.length ≤ high
  high_le : high ≤ 80*(con.scrolled+25)
  blank : ∀ a, start+line.length ≤ a → a < high → shown con a = 0x20

section Page
variable {start high : ℕ} {line : Bytes} {con : Console}

theorem place_mod (h : OnScreen con) : place con % 80 = con.col := by
  have := h.col_lt
  unfold place
  omega

theorem place_lt (h : OnScreen con) : place con < 80*(con.scrolled+25) := by
  have := h.row_lt
  have := h.col_lt
  unfold place
  omega

theorem onPage_start (h : OnScreen con) : OnPage (place con) (place con) [] con := by
  constructor
  · exact h
  · rfl
  · unfold place
    omega
  · intro i hi
    cases hi
  · exact le_refl _
  · exact (place_lt h).le
  · intro a h1 h2
    rw [List.length_nil] at h1
    omega

/-- Printing one character; a line of 255 characters never scrolls its own beginning away. -/
theorem OnPage.print (h : OnPage start high line con) {c : UInt8} (hc : Plain c) (hlen : line.length < 255) :
    OnPage start (max high (start+(line++[c]).length)) (line++[c]) (vgaPutchar c con) := by
  obtain ⟨hon,hplace,hwin,hhere,hother⟩ := printed_plain hc h.onScreen
  have hcursor := h.cursor
  have hwindow := h.window
  have hhigh := h.high_le
  have hnew := place_lt hon
  have hlength : (line++[c]).length = line.length+1 := by
    rw [List.length_append,List.length_singleton]
  have hw : 80*(vgaPutchar c con).scrolled ≤ start ∧ con.scrolled ≤ (vgaPutchar c con).scrolled := by
    rcases hwin with hwin | ⟨hwin,hlast⟩
    · omega
    · omega
  rw [hlength]
  constructor
  · exact hon
  · rw [hlength]
    omega
  · exact hw.1
  · intro i hi
    rw [hlength] at hi
    by_cases he : i = line.length
    · rw [he,← hcursor,hhere,List.getD_eq_getElem?_getD,List.getElem?_append_right (le_refl _),Nat.sub_self]
      rfl
    · rw [hother (start+i) (by omega) (by omega) (by have := place_lt h.onScreen; omega),h.text i (by omega),
        List.getD_eq_getElem?_getD,List.getD_eq_getElem?_getD,List.getElem?_append_left (by omega)]
  · rw [hlength]
    omega
  · omega
  · intro a h1 h2
    rw [hlength] at h1
    rw [hother a (by omega) (by omega) (by omega)]
    exact h.blank a (by omega) (by omega)

theorem OnPage.puts (h : OnPage start high line con) {str : Bytes} (hstr : ∀ c ∈ str, Plain c)
    (hlen : (line++str).length ≤ 255) :
    OnPage start (max high (start+(line++str).length)) (line++str) (vgaPuts str con) := by
  induction str generalizing line con high with
  | nil =>
    have hle := h.length_le
    rw [List.append_nil,Nat.max_eq_left hle]
    exact h
  | cons c str ih =>
    have hlen' : (line++[c]++str).length ≤ 255 := by rwa [List.append_assoc]
    have hshort : line.length < 255 := by
      rw [List.length_append,List.length_cons] at hlen
      omega
    have hone := h.print (hstr c List.mem_cons_self) hshort
    have hrest := ih hone (fun b hb => hstr b (List.mem_cons_of_mem _ hb)) hlen'
    have hmax : max (max high (start+(line++[c]).length)) (start+(line++[c]++str).length) =
        max high (start+(line++c :: str).length) := by
      simp only [List.length_append,List.length_cons,List.length_nil]
      omega
    rw [hmax,List.append_assoc] at hrest
    exact hrest

theorem OnPage.backspace {c : UInt8} (h : OnPage start high (line++[c]) con) (hcol : 0 < con.col) :
    OnPage start high line (vgaPutchar 0x08 con) := by
  obtain ⟨hon,hplace,hscrolled,hhere,hother⟩ := erased_backspace h.onScreen hcol
  have hcursor := h.cursor
  have hwindow := h.window
  have hle := h.length_le
  rw [List.length_append,List.length_singleton] at hcursor hle
  constructor
  · exact hon
  · omega
  · rw [hscrolled]
    exact hwindow
  · intro i hi
    rw [hother (start+i) (by omega) (by omega),h.text i (by rw [List.length_append]; omega),
      List.getD_eq_getElem?_getD,List.getD_eq_getElem?_getD,List.getElem?_append_left hi]
  · omega
  · rw [hscrolled]
    exact h.high_le
  · intro a h1 h2
    by_cases he : a = place (vgaPutchar 0x08 con)
    · rw [he]
      exact hhere
    · rw [hother a he (by omega)]
      exact h.blank a (by rw [List.length_append,List.length_singleton]; omega) h2

/-- A line on one row is taken back completely. -/
theorem OnPage.erase (h : OnPage start high line con) (hrow : start%80+line.length < 80) :
    OnPage start high [] (eraseInput line.length con) := by
  induction line using List.reverseRecOn generalizing con with
  | nil => exact h
  | append_singleton line c ih =>
    have hcursor := h.cursor
    have hmod := place_mod h.onScreen
    rw [List.length_append,List.length_singleton] at hcursor hrow ⊢
    have hcol : 0 < con.col := by omega
    unfold eraseInput
    rw [Function.iterate_succ_apply]
    exact ih (h.backspace hcol) (by omega)

/-- Erasing never leaves the row of the cursor. -/
theorem place_erase (h : OnScreen con) (n : ℕ) :
    OnScreen (eraseInput n con) ∧ 80*(place con/80) ≤ place (eraseInput n con) := by
  induction n generalizing con with
  | zero => exact ⟨h,by change _ ≤ place con; omega⟩
  | succ n ih =>
    unfold eraseInput at *
    rw [Function.iterate_succ_apply]
    by_cases hcol : con.col = 0
    · rw [backspace_edge h hcol]
      exact ih h
    · have he := erased_backspace h (Nat.pos_of_ne_zero hcol)
      obtain ⟨hon,hle⟩ := ih he.onScreen
      refine ⟨hon,?_⟩
      have hmod := place_mod h
      have hplace := he.place
      omega

theorem place_puts (h : OnScreen con) {str : Bytes} (hstr : ∀ c ∈ str, Plain c) :
    place (vgaPuts str con) = place con+str.length := by
  induction str generalizing con with
  | nil => rfl
  | cons c str ih =>
    have hp := printed_plain (hstr c List.mem_cons_self) h
    have hrest := ih hp.onScreen (fun b hb => hstr b (List.mem_cons_of_mem _ hb))
    change place (vgaPuts str (vgaPutchar c con)) = _
    rw [hrest,hp.place,List.length_cons]
    omega

end Page

/-! ## One key -/

/-- A history key that replaces the line. -/
def Replaces (cmds : List Bytes) (d : Draft) (c : UInt8) : Prop :=
  (c = keyUp ∧ d.pos < cmds.length) ∨ (c = keyDown ∧ 0 < d.pos)

/-- What the screen gets to see of a key. -/
inductive Drawn (cmds : List Bytes) (d : Draft) (c : UInt8) (con : Console) : Draft → Console → Prop
  | back {d' : Draft} {b : UInt8} : c = 0x08 → d.line = d'.line++[b] → Drawn cmds d c con d' (vgaPutchar 0x08 con)
  | replace {d' : Draft} : Replaces cmds d c → d'.line ∈ [] :: cmds →
      Drawn cmds d c con d' (vgaPuts d'.line (eraseInput d.line.length con))
  | print {d' : Draft} : 0x20 ≤ c ∧ c < 0x80 → d'.line = d.line++[c] → Drawn cmds d c con d' (vgaPutchar c con)
  | none {d' : Draft} : (c = 0x08 → d.line = []) → ¬ Replaces cmds d c → d'.line = d.line → Drawn cmds d c con d' con

section OneKey
variable {h : History} {s : LineState} {d : Draft}

theorem drawn_up (hf : Follows h s d) :
    Drawn (entries h) d keyUp s.con (editKey (entries h) d keyUp) (lineKey h shellBufSize keyUp s).con := by
  rcases up_cases hf.pos with ⟨hget,hline,hedit⟩ | ⟨entry,hget,hline,hedit⟩
  · rw [hline,hedit]
    refine .none (fun he => absurd he (by decide)) ?_ rfl
    rintro (⟨_,hlt⟩ | ⟨he,_⟩)
    · have hge := List.getElem?_eq_none_iff.mp hget
      omega
    · exact absurd he (by decide)
  · rw [hline,hedit,recall_eq,hf.len]
    have hlt := (List.getElem?_eq_some_iff.mp hget).1
    exact .replace (.inl ⟨rfl,hlt⟩) (List.mem_cons_of_mem _ (List.mem_of_getElem? hget))

theorem drawn_down (hf : Follows h s d) :
    Drawn (entries h) d keyDown s.con (editKey (entries h) d keyDown) (lineKey h shellBufSize keyDown s).con := by
  rcases down_cases hf.pos hf.known with ⟨hzero,hline,hedit⟩ | ⟨hpos,hline,hedit⟩ | ⟨k,entry,hpos,hget,hline,hedit⟩
  · rw [hline,hedit]
    refine .none (fun he => absurd he (by decide)) ?_ rfl
    rintro (⟨he,_⟩ | ⟨_,hlt⟩)
    · exact absurd he (by decide)
    · exact hlt.ne' hzero
  · rw [hline,hedit,hf.len]
    exact .replace (.inr ⟨rfl,hpos⟩) List.mem_cons_self
  · rw [hline,hedit,recall_eq,hf.len]
    exact .replace (.inr ⟨rfl,by omega⟩) (List.mem_cons_of_mem _ (List.mem_of_getElem? hget))

theorem drawn_key (hf : Follows h s d) (hroom : d.line.length < 255) (c : UInt8) :
    Drawn (entries h) d c s.con (editKey (entries h) d c) (lineKey h shellBufSize c s).con := by
  have hlen := hf.len
  by_cases h1 : c = 0x08
  · subst h1
    have hnr : ¬ Replaces (entries h) d 0x08 := by
      rintro (⟨he,_⟩ | ⟨he,_⟩) <;> exact absurd he (by decide)
    unfold lineKey editKey
    rw [if_pos rfl,if_pos rfl]
    rcases List.eq_nil_or_concat' d.line with hnil | ⟨line,b,hline⟩
    · rw [if_neg (by rw [hlen,hnil]; decide)]
      exact .none (fun _ => hnil) hnr (by dsimp only; rw [hnil]; rfl)
    · rw [if_pos (by rw [hlen,hline,List.length_append]; exact Nat.succ_pos _)]
      exact .back rfl (by dsimp only; rw [hline,List.dropLast_concat])
  · by_cases h2 : c = keyUp
    · subst h2
      exact drawn_up hf
    · by_cases h3 : c = keyDown
      · subst h3
        exact drawn_down hf
      · have hnr : ¬ Replaces (entries h) d c := by
          rintro (⟨he,_⟩ | ⟨he,_⟩)
          · exact h2 he
          · exact h3 he
        unfold lineKey editKey
        rw [if_neg h1,if_neg h2,if_neg h3,if_neg h1,if_neg h2,if_neg h3]
        by_cases h4 : 0x20 ≤ c ∧ c < 0x80
        · rw [if_pos h4,if_pos h4,if_pos (show d.line.length < shellBufSize-1 from hroom)]
          exact .print h4 rfl
        · rw [if_neg h4,if_neg h4]
          exact .none (fun he => absurd he h1) hnr rfl

end OneKey

/-- The key takes nothing back over the left edge: no Backspace when the line ends there, and no recall once the
line has left the row of the prompt. -/
structure KeepsRow (cmds : List Bytes) (col : ℕ) (d : Draft) (c : UInt8) : Prop where
  back : c = 0x08 → d.line ≠ [] → (col+d.line.length) % 80 ≠ 0
  replace : Replaces cmds d c → col+d.line.length < 80

theorem printable_of_mem {cmds : List Bytes} (hcmds : ∀ cmd ∈ cmds, Printable cmd) {line : Bytes}
    (h : line ∈ [] :: cmds) : Printable line := by
  rcases List.mem_cons.mp h with rfl | h
  · exact fun b hb => absurd hb List.not_mem_nil
  · exact hcmds line h

section Draw
variable {cmds : List Bytes} {d d' : Draft} {c : UInt8} {con con' : Console} {start high : ℕ}

theorem Drawn.onPage (hcmds : ∀ cmd ∈ cmds, Printable cmd) (hlen : d'.line.length ≤ 255)
    (hw : Drawn cmds d c con d' con') (h : OnPage start high d.line con) (hk : KeepsRow cmds (start%80) d c) :
    OnPage start (max high (start+d'.line.length)) d'.line con' := by
  have hle := h.length_le
  cases hw with
  | @back b hc hline =>
    have hlength : d.line.length = d'.line.length+1 := by
      rw [hline,List.length_append,List.length_singleton]
    have hrow := hk.back hc (by rw [hline]; simp)
    have hmod := place_mod h.onScreen
    have hcursor := h.cursor
    rw [hline] at h
    rw [Nat.max_eq_left (by omega)]
    exact h.backspace (by omega)
  | replace hr hmem =>
    have hblank := h.erase (hk.replace hr)
    exact hblank.puts (fun b hb => (printable_of_mem hcmds hmem).plain hb) hlen
  | print hc hline =>
    have hplain : Plain c := by
      have hp : Printable [c] := fun b hb => by rwa [List.mem_singleton.mp hb]
      exact hp.plain List.mem_cons_self
    rw [hline] at hlen ⊢
    rw [List.length_append,List.length_singleton] at hlen
    exact h.print hplain (by omega)
  | none _ _ hline =>
    rw [hline,Nat.max_eq_left hle]
    exact h

/-- Otherwise the cursor is not behind the new line. -/
theorem Drawn.keepsRow (hcmds : ∀ cmd ∈ cmds, Printable cmd) (hw : Drawn cmds d c con d' con') (hon : OnScreen con)
    (h : place con = start+d.line.length) (h' : place con' = start+d'.line.length) :
    KeepsRow cmds (start%80) d c := by
  have hmod := place_mod hon
  constructor
  · intro hc hne hzero
    cases hw with
    | @back b _ hline =>
      have hlength : d.line.length = d'.line.length+1 := by
        rw [hline,List.length_append,List.length_singleton]
      rw [backspace_edge hon (by omega)] at h'
      omega
    | replace hr _ =>
      rcases hr with ⟨he,_⟩ | ⟨he,_⟩ <;> exact absurd (hc.symm.trans he) (by decide)
    | print hp _ =>
      rw [hc] at hp
      exact absurd hp.1 (by decide)
    | none hb _ _ => exact hne (hb hc)
  · intro hr
    by_contra hlong
    cases hw with
    | back hc _ =>
      rcases hr with ⟨he,_⟩ | ⟨he,_⟩ <;> exact absurd (hc.symm.trans he) (by decide)
    | replace _ hmem =>
      obtain ⟨hon',hle⟩ := place_erase hon d.line.length
      rw [place_puts hon' (fun b hb => (printable_of_mem hcmds hmem).plain hb)] at h'
      omega
    | print hp _ =>
      rcases hr with ⟨he,_⟩ | ⟨he,_⟩
      · rw [he] at hp
        exact absurd hp.2 (by decide)
      · rw [he] at hp
        exact absurd hp.2 (by decide)
    | none _ hn _ => exact hn hr

theorem Drawn.onScreen (hw : Drawn cmds d c con d' con') (hon : OnScreen con) : OnScreen con' := by
  cases hw with
  | back _ _ => exact hon.putchar _
  | replace _ _ => exact (place_erase hon _).1.puts _
  | print _ _ => exact hon.putchar _
  | none _ _ _ => exact hon

end Draw

/-! ## All keys of a line -/

/-- The variables of `read_line` after it has processed exactly these keys, none of them Enter: it waits for the
next one, or the line is full. -/
def LineAt (h : History) (s : LineState) (keys : List UInt8) (s' : LineState) : Prop :=
  readLine h shellBufSize keys s = .waiting s' ∨ readLine h shellBufSize keys s = .returned s' []

/-- From the end of the prompt up to the cursor the screen shows the line, and what is left of earlier input of
this line behind the cursor is blank. -/
structure Agrees (h : History) (buf : Mem) (con : Console) (keys : List UInt8) (s : LineState) : Prop where
  cursor : place s.con = place con+s.len
  text : ∀ i < s.len, 80*s.con.scrolled ≤ place con+i ∧ shown s.con (place con+i) = s.buf i
  blank : ∀ pre s', pre <+: keys → LineAt h (.start buf con) pre s' →
    ∀ a, place s.con ≤ a → a < place con+s'.len → shown s.con a = 0x20

/-- The screen agrees with the line after every key. -/
def ScreenFollows (h : History) (buf : Mem) (con : Console) (keys : List UInt8) : Prop :=
  ∀ pre s, pre <+: keys → 0x0A ∉ pre → LineAt h (.start buf con) pre s → Agrees h buf con pre s

/-- Only the last of the keys may fill the line, so that all of them are processed. -/
def Processed (cmds : List Bytes) (d : Draft) (keys : List UInt8) : Prop :=
  ∀ pre c, pre++[c] <+: keys → (pre.foldl (editKey cmds) d).line.length < 255

def lineAfter (h : History) (s : LineState) (keys : List UInt8) : LineState :=
  keys.foldl (fun s c => lineKey h shellBufSize c s) s

theorem Processed.next {cmds : List Bytes} {d : Draft} {c : UInt8} {keys : List UInt8}
    (h : Processed cmds d (c :: keys)) : Processed cmds (editKey cmds d c) keys :=
  fun pre b hpre => h (c :: pre) b ((List.prefix_cons_inj c).mpr hpre)

theorem Processed.init {cmds : List Bytes} {d : Draft} {c : UInt8} {keys : List UInt8}
    (h : Processed cmds d (keys++[c])) : Processed cmds d keys :=
  fun pre b hpre => h pre b (hpre.trans (List.prefix_append keys [c]))

section Runs
variable {h : History} {s s' : LineState} {d : Draft}

theorem follows_after {keys : List UInt8} (hf : Follows h s d) (hp : Processed (entries h) d keys) :
    Follows h (lineAfter h s keys) (keys.foldl (editKey (entries h)) d) := by
  induction keys generalizing s d with
  | nil => exact hf
  | cons c keys ih => exact ih (hf.key (hp [] c ⟨keys,rfl⟩) c) hp.next

/-- `read_line` gets to a state by processing all keys. -/
theorem lineAt_after {keys : List UInt8} (hf : Follows h s d) (hn : 0x0A ∉ keys) (hat : LineAt h s keys s') :
    Processed (entries h) d keys ∧ s'.con = (lineAfter h s keys).con ∧ s'.len = (lineAfter h s keys).len ∧
      ∀ i < s'.len, s'.buf i = (lineAfter h s keys).buf i := by
  induction keys generalizing s d with
  | nil =>
    refine ⟨?_,?_⟩
    · intro pre c hpre
      exact absurd (List.prefix_nil.mp hpre) (by simp)
    · unfold LineAt readLine at hat
      by_cases hlt : s.len < shellBufSize-1
      · rw [if_pos hlt] at hat
        rcases hat with hat | hat <;> cases hat
        exact ⟨rfl,rfl,fun _ _ => rfl⟩
      · rw [if_neg hlt] at hat
        rcases hat with hat | hat <;> cases hat
        exact ⟨rfl,rfl,fun i hi => Function.update_of_ne (Nat.ne_of_lt hi) _ _⟩
  | cons c keys ih =>
    have hc : c ≠ 0x0A := by
      rintro rfl
      exact hn List.mem_cons_self
    unfold LineAt at hat
    by_cases hlt : s.len < shellBufSize-1
    · have hroom : d.line.length < 255 := hf.len.symm.trans_lt hlt
      rw [readLine,if_pos hlt,if_neg hc] at hat
      obtain ⟨hp,hrest⟩ := ih (hf.key hroom c) (fun hmem => hn (List.mem_cons_of_mem _ hmem)) hat
      refine ⟨?_,hrest⟩
      intro pre b hpre
      cases pre with
      | nil => exact hroom
      | cons c' pre =>
        obtain ⟨rfl,htail⟩ := List.cons_prefix_cons.mp hpre
        exact hp pre b htail
    · rw [readLine,if_neg hlt] at hat
      rcases hat with hat | hat <;> cases hat

theorem lineAt_of_processed {keys : List UInt8} (hf : Follows h s d) (hn : 0x0A ∉ keys)
    (hp : Processed (entries h) d keys) : ∃ s', LineAt h s keys s' := by
  induction keys generalizing s d with
  | nil =>
    by_cases hlt : s.len < shellBufSize-1
    · exact ⟨s,Or.inl (if_pos hlt)⟩
    · exact ⟨s.finish,Or.inr (if_neg hlt)⟩
  | cons c keys ih =>
    have hc : c ≠ 0x0A := by
      rintro rfl
      exact hn List.mem_cons_self
    have hroom : d.line.length < 255 := hp [] c ⟨keys,rfl⟩
    have hlt : s.len < shellBufSize-1 := hf.len.trans_lt hroom
    obtain ⟨s',hs'⟩ := ih (hf.key hroom c) (fun hmem => hn (List.mem_cons_of_mem _ hmem)) hp.next
    refine ⟨s',?_⟩
    unfold LineAt
    rw [readLine,if_pos hlt,if_neg hc]
    exact hs'

end Runs

section Keystrokes
variable {h : History} {buf : Mem} {con : Console}

theorem edited_concat (cmds : List Bytes) (keys : List UInt8) (c : UInt8) :
    edited cmds (keys++[c]) = editKey cmds (edited cmds keys) c := List.foldl_append

theorem lineAfter_concat (keys : List UInt8) (c : UInt8) (s : LineState) :
    lineAfter h s (keys++[c]) = lineKey h shellBufSize c (lineAfter h s keys) := List.foldl_append

/-- One key more, as the screen sees it. -/
theorem drawn_after {keys : List UInt8} {c : UInt8} (hp : Processed (entries h) ⟨[],0⟩ (keys++[c])) :
    Drawn (entries h) (edited (entries h) keys) c (lineAfter h (.start buf con) keys).con
      (edited (entries h) (keys++[c])) (lineAfter h (.start buf con) (keys++[c])).con := by
  rw [edited_concat,lineAfter_concat]
  exact drawn_key (follows_after (follows_start h buf con) hp.init) (hp keys c (List.prefix_refl _)) c

theorem onScreen_after {keys : List UInt8} (hon : OnScreen con) (hp : Processed (entries h) ⟨[],0⟩ keys) :
    OnScreen (lineAfter h (.start buf con) keys).con := by
  induction keys using List.reverseRecOn with
  | nil => exact hon
  | append_singleton keys c ih => exact (drawn_after hp).onScreen (ih hp.init)

theorem length_edited (keys : List UInt8) : (edited (entries h) keys).line.length ≤ 255 := by
  induction keys using List.reverseRecOn with
  | nil => exact Nat.zero_le _
  | append_singleton keys c ih =>
    rw [edited_concat]
    exact length_edit ih c

/-- The line is on the page after keys that all keep their row, and the blank part reaches over everything that
it once covered. -/
theorem onPage_after (hcmds : ∀ cmd ∈ entries h, Printable cmd) (hon : OnScreen con) {keys : List UInt8}
    (hp : Processed (entries h) ⟨[],0⟩ keys)
    (hk : ∀ pre c, pre++[c] <+: keys → KeepsRow (entries h) con.col (edited (entries h) pre) c) :
    ∃ high, OnPage (place con) high (edited (entries h) keys).line (lineAfter h (.start buf con) keys).con ∧
      ∀ pre, pre <+: keys → place con+(edited (entries h) pre).line.length ≤ high := by
  induction keys using List.reverseRecOn with
  | nil =>
    refine ⟨place con,onPage_start hon,?_⟩
    intro pre hpre
    rw [List.prefix_nil.mp hpre]
    exact le_refl _
  | append_singleton keys c ih =>
    obtain ⟨high,hpage,hhigh⟩ := ih hp.init (fun pre b hpre => hk pre b (hpre.trans (List.prefix_append keys [c])))
    have hrow := hk keys c (List.prefix_refl _)
    rw [← place_mod hon] at hrow
    refine ⟨_,(drawn_after hp).onPage hcmds (length_edited _) hpage hrow,?_⟩
    intro pre hpre
    rcases List.prefix_concat_iff.mp hpre with rfl | hpre
    · exact le_max_right _ _
    · exact (hhigh pre hpre).trans (le_max_left _ _)

theorem agrees_of_onPage {keys : List UInt8} {s : LineState} {high : ℕ}
    (hpage : OnPage (place con) high (edited (entries h) keys).line (lineAfter h (.start buf con) keys).con)
    (hhigh : ∀ pre, pre <+: keys → place con+(edited (entries h) pre).line.length ≤ high) (hn : 0x0A ∉ keys)
    (hat : LineAt h (.start buf con) keys s) : Agrees h buf con keys s := by
  obtain ⟨hp,hcon,hlen,hbuf⟩ := lineAt_after (follows_start h buf con) hn hat
  have hf := follows_after (follows_start h buf con) hp
  have hline : s.len = (edited (entries h) keys).line.length := hlen.trans hf.len
  constructor
  · rw [hcon,hline]
    exact hpage.cursor
  · intro i hi
    rw [hcon,hbuf i hi]
    refine ⟨(hpage.window).trans (Nat.le_add_right _ _),?_⟩
    rw [hpage.text i (hline ▸ hi)]
    exact (hf.text i (hline ▸ hi)).symm
  · intro pre s' hpre hat' a h1 h2
    have hn' : 0x0A ∉ pre := fun hmem => hn (hpre.subset hmem)
    obtain ⟨hp',_,hlen',_⟩ := lineAt_after (follows_start h buf con) hn' hat'
    have hf' := follows_after (follows_start h buf con) hp'
    have hle := hhigh pre hpre
    have hlen'' : s'.len = (edited (entries h) pre).line.length := hlen'.trans hf'.len
    rw [hcon] at h1 ⊢
    rw [hpage.cursor] at h1
    exact hpage.blank a h1 (by omega)

/-- A key that does not keep its row leaves the cursor behind the wrong place. -/
theorem ScreenFollows.keepsRow (hcmds : ∀ cmd ∈ entries h, Printable cmd) (hon : OnScreen con) {keys : List UInt8}
    (hs : ScreenFollows h buf con keys) {pre : List UInt8} {c : UInt8} (hpre : pre++[c] <+: keys)
    (hn : 0x0A ∉ pre++[c]) (hp : Processed (entries h) ⟨[],0⟩ (pre++[c])) :
    KeepsRow (entries h) con.col (edited (entries h) pre) c := by
  have hcursor (p : List UInt8) (hp : Processed (entries h) ⟨[],0⟩ p) (hpre : p <+: keys) (hn : 0x0A ∉ p) :
      place (lineAfter h (.start buf con) p).con = place con+(edited (entries h) p).line.length := by
    obtain ⟨s,hat⟩ := lineAt_of_processed (follows_start h buf con) hn hp
    obtain ⟨_,hcon,hlen,_⟩ := lineAt_after (follows_start h buf con) hn hat
    have hf := follows_after (follows_start h buf con) hp
    have hc := (hs p s hpre hn hat).cursor
    rw [hcon,hlen,hf.len] at hc
    exact hc
  have hn' : 0x0A ∉ pre := fun hmem => hn (List.mem_append_left _ hmem)
  rw [← place_mod hon]
  exact (drawn_after hp).keepsRow hcmds (onScreen_after hon hp.init)
    (hcursor pre hp.init ((List.prefix_append pre [c]).trans hpre) hn') (hcursor (pre++[c]) hp hpre hn)

/-- The screen agrees with the line after every key exactly when every processed key keeps its row: no Backspace
while the line ends at the left edge, and no recall once it has left the row of the prompt. -/
theorem screen_follows_iff (hh : ShellHistory h) (hon : OnScreen con) (keys : List UInt8) :
    ScreenFollows h buf con keys ↔
      ∀ pre c, pre++[c] <+: keys → 0x0A ∉ pre++[c] →
        (∀ p, p <+: pre → (edited (entries h) p).line.length < 255) →
        KeepsRow (entries h) con.col (edited (entries h) pre) c := by
  constructor
  · intro hs pre c hpre hn hshort
    apply hs.keepsRow hh.printable hon hpre hn
    intro p b hp
    rcases List.prefix_concat_iff.mp hp with he | hp
    · rw [(List.append_inj' he rfl).1]
      exact hshort pre (List.prefix_refl _)
    · exact hshort p ((List.prefix_append p [b]).trans hp)
  · intro hk pre s hpre hn hat
    obtain ⟨hp,_,_,_⟩ := lineAt_after (follows_start h buf con) hn hat
    obtain ⟨high,hpage,hhigh⟩ := @onPage_after h buf con hh.printable hon pre hp (by
      intro p c hpc
      apply hk p c (hpc.trans hpre) (fun hmem => hn (hpc.subset hmem))
      intro q hq
      obtain ⟨rest,rfl⟩ := hq
      cases rest with
      | nil =>
        rw [List.append_nil] at hpc
        exact hp q c hpc
      | cons b rest =>
        apply hp q b
        refine List.IsPrefix.trans ?_ hpc
        exact ⟨rest++[c],by simp⟩)
    exact agrees_of_onPage hpage hhigh hn hat

end Keystrokes

/-- A prompt that ends in column 8 of row 0, and three keys. -/
theorem screen_follows_prompt : ShellHistory ⟨fun _ _ => 0,0⟩ ∧ OnScreen ⟨fun _ => 0,0,8,0x07,[],0⟩ ∧
    (ScreenFollows ⟨fun _ _ => 0,0⟩ (fun _ => 0) ⟨fun _ => 0,0,8,0x07,[],0⟩ [0x61,0x62,0x08] ↔
      ∀ pre c, pre++[c] <+: [0x61,0x62,0x08] → 0x0A ∉ pre++[c] →
        (∀ p, p <+: pre → (edited (entries ⟨fun _ _ => 0,0⟩) p).line.length < 255) →
        KeepsRow (entries ⟨fun _ _ => 0,0⟩) 8 (edited (entries ⟨fun _ _ => 0,0⟩) pre) c) :=
  ⟨.boot,⟨by decide,by decide⟩,screen_follows_iff .boot ⟨by decide,by decide⟩ _⟩

/-- The prompt ends in the last column; the letter `a` and Backspace. -/
theorem backspace_stuck : ¬ ScreenFollows ⟨fun _ _ => 0,0⟩ (fun _ => 0) ⟨fun _ => 0,0,79,0x07,[],0⟩ [0x61,0x08] := by
  intro hs
  have hp : Processed (entries ⟨fun _ _ => 0,0⟩) ⟨[],0⟩ ([0x61]++[0x08]) := by
    intro pre c hpre
    rcases pre with _ | ⟨b,_ | ⟨b',pre⟩⟩
    · decide
    · obtain ⟨rfl,_⟩ := List.cons_prefix_cons.mp hpre
      decide
    · have hlen := hpre.length_le
      simp at hlen
  have hrow := @ScreenFollows.keepsRow _ _ _ ShellHistory.boot.printable ⟨by decide,by decide⟩ _ hs [0x61] 0x08
    (List.prefix_refl _) (by decide) hp
  exact hrow.back rfl (by decide) (by decide)

end VesperOS.ScreenLine
