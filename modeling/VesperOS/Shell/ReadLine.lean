import VesperOS.FileSystem.StoredNames
import VesperOS.Console.Vga

/-! # The line editor of the shell

`read_line` of `shell.c` with the command history behind it, and the editor that it is
meant to be: a line of text, changed by one key at a time, with a position in the list of
the last commands. The loop of `read_line` also ends when the line is full.
-/
namespace VesperOS.ReadLine
open ByteMemory VesperFs StoredNames Vga

def shellBufSize : ℕ := 256
def historySize : ℕ := 8
def keyUp : UInt8 := 0x80
def keyDown : UInt8 := 0x81

/-- The copy stops at the NUL of the source, and the rest of the `n` bytes is cleared. -/
def strncpy (dst src : Mem) (n : ℕ) : Mem := fun i => if i < n then (cString src 0 n).getD i 0 else dst i

/-! ## Command history -/

/-- `history` and `history_count`, which is exact while fewer than 2^31 commands were entered. -/
structure History where
  text : ℕ → Mem
  count : ℕ

def historyPush (cmd : Mem) (h : History) : History :=
  if cmd 0 = 0 then h
  else
    let slot := h.count % historySize
    let text := Function.update (strncpy (h.text slot) cmd (shellBufSize-1)) (shellBufSize-1) 0
    ⟨Function.update h.text slot text,h.count+1⟩

def historyGet (back : ℕ) (h : History) : Option Mem :=
  if back = 0 ∨ h.count < back ∨ historySize < back then none else some (h.text ((h.count-back) % historySize))

/-! ## `read_line` -/

structure LineState where
  buf : Mem
  len : ℕ
  histPos : ℕ
  con : Console

def eraseInput (len : ℕ) (con : Console) : Console := (vgaPutchar 0x08)^[len] con

/-- A history entry replaces the line. -/
def LineState.recall (maxLen : ℕ) (entry : Mem) (s : LineState) : LineState :=
  let buf := Function.update (strncpy s.buf entry (maxLen-1)) (maxLen-1) 0
  { s with buf := buf, len := (cString buf 0 maxLen).length, con := vgaPuts (cString buf 0 maxLen) s.con }

/-- One turn of the loop, for any key but Enter. -/
def lineKey (h : History) (maxLen : ℕ) (c : UInt8) (s : LineState) : LineState :=
  if c = 0x08 then
    if 0 < s.len then { s with len := s.len-1, con := vgaPutchar 0x08 s.con } else s
  else if c = keyUp then
    match historyGet (s.histPos+1) h with
    | none => s
    | some entry =>
      { ({ s with con := eraseInput s.len s.con } : LineState).recall maxLen entry with histPos := s.histPos+1 }
  else if c = keyDown then
    if 0 < s.histPos then
      let s := { s with con := eraseInput s.len s.con, histPos := s.histPos-1 }
      if s.histPos = 0 then { s with buf := Function.update s.buf 0 0, len := 0 }
      else
        match historyGet s.histPos h with
        | none => s
        | some entry => s.recall maxLen entry
    else s
  else if 0x20 ≤ c ∧ c < 0x80 then
    { s with buf := Function.update s.buf s.len c, len := s.len+1, con := vgaPutchar c s.con }
  else s

/-- The terminator stored after the loop. -/
def LineState.finish (s : LineState) : LineState := { s with buf := Function.update s.buf s.len 0 }

/-- With the keys given, `read_line` still waits for one or has returned and left some unread. -/
inductive Reading where
  | waiting (s : LineState)
  | returned (s : LineState) (rest : List UInt8)

def readLine (h : History) (maxLen : ℕ) : List UInt8 → LineState → Reading
  | [], s => if s.len < maxLen-1 then .waiting s else .returned s.finish []
  | c :: keys, s =>
    if s.len < maxLen-1 then
      if c = 0x0A then .returned (LineState.finish { s with con := vgaPutchar 0x0A s.con }) keys
      else readLine h maxLen keys (lineKey h maxLen c s)
    else .returned s.finish (c :: keys)

/-- `len` and `hist_pos` at the start of `read_line`. -/
def LineState.start (buf : Mem) (con : Console) : LineState := ⟨buf,0,0,con⟩

/-! ## The reference editor -/

structure Draft where
  line : Bytes
  pos : ℕ

/-- The editor keeps at most 255 characters; `cmds` lists the commands that can be recalled, newest first. -/
def editKey (cmds : List Bytes) (d : Draft) (c : UInt8) : Draft :=
  if c = 0x08 then { d with line := d.line.dropLast }
  else if c = keyUp then
    match cmds[d.pos]? with
    | none => d
    | some cmd => ⟨cmd,d.pos+1⟩
  else if c = keyDown then
    match d.pos with
    | 0 => d
    | 1 => ⟨[],0⟩
    | k+2 => ⟨cmds.getD k [],k+1⟩
  else if 0x20 ≤ c ∧ c < 0x80 then
    if d.line.length < shellBufSize-1 then { d with line := d.line++[c] } else d
  else d

def edited (cmds : List Bytes) (keys : List UInt8) : Draft := keys.foldl (editKey cmds) ⟨[],0⟩

/-- The commands that a history holds, newest first. -/
def entries (h : History) : List Bytes :=
  (List.range (min h.count historySize)).map
    (fun k => cString (h.text ((h.count-(k+1)) % historySize)) 0 (shellBufSize-1))

/-- One Enter ends the line: the keys after it stay unread, and the buffer holds what the editor made of the keys
before it. Without an Enter the line is not ended. -/
structure Submits (h : History) (buf : Mem) (con : Console) (keys : List UInt8) : Prop where
  enter : ∀ pre post, keys = pre++0x0A :: post → 0x0A ∉ pre → ∃ s,
    readLine h shellBufSize keys (.start buf con) = .returned s post ∧
      cString s.buf 0 shellBufSize = (edited (entries h) pre).line
  open_line : 0x0A ∉ keys → ∃ s, readLine h shellBufSize keys (.start buf con) = .waiting s

/-! ## Strings in buffers -/

theorem length_cString (m : Mem) (a n : ℕ) : (cString m a n).length ≤ n := by
  induction n generalizing a with
  | zero => exact le_refl 0
  | succ n ih =>
    unfold cString
    split
    · exact Nat.zero_le _
    · exact Nat.succ_le_succ (ih (a+1))

theorem zero_notMem_cString (m : Mem) (a n : ℕ) : 0 ∉ cString m a n := by
  induction n generalizing a with
  | zero => exact List.not_mem_nil
  | succ n ih =>
    unfold cString
    split
    · exact List.not_mem_nil
    · rename_i hne
      intro hmem
      rcases List.mem_cons.mp hmem with h0 | hmem
      · exact hne h0.symm
      · exact ih (a+1) hmem

/-- What `strncpy` and the terminator behind it leave. -/
def copied (dst src : Mem) : Mem := Function.update (strncpy dst src (shellBufSize-1)) (shellBufSize-1) 0

theorem copied_apply (dst src : Mem) {i : ℕ} (hi : i ≤ 255) : copied dst src i = (cString src 0 255).getD i 0 := by
  have hlen := length_cString src 0 255
  unfold copied strncpy shellBufSize
  by_cases h : i = 255
  · subst h
    rw [Function.update_self,List.getD_eq_getElem?_getD,List.getElem?_eq_none hlen]
    rfl
  · rw [Function.update_of_ne h,if_pos (by omega)]

theorem cString_copied (dst src : Mem) {n : ℕ} (hn : 255 ≤ n) : cString (copied dst src) 0 (n+1) = cString src 0 255 := by
  have hlen := length_cString src 0 255
  apply cString_of_getD (by omega) (zero_notMem_cString src 0 255)
  intro k hk
  rw [Nat.zero_add]
  exact copied_apply dst src (by omega)

/-- A string that may fill all `n` bytes. -/
theorem cString_of_le {m : Mem} {a n : ℕ} {s : Bytes} (hlen : s.length ≤ n) (hz : 0 ∉ s)
    (h : ∀ k < n, m (a+k) = s.getD k 0) : cString m a n = s := by
  induction n generalizing a s with
  | zero => exact (List.eq_nil_of_length_eq_zero (Nat.le_zero.mp hlen)).symm
  | succ n ih =>
    have h0 := h 0 (Nat.succ_pos n)
    rw [Nat.add_zero] at h0
    cases s with
    | nil =>
      unfold cString
      exact if_pos h0
    | cons c cs =>
      have hc : m a = c := h0
      have htail : cString m (a+1) n = cs := by
        apply ih (Nat.le_of_succ_le_succ hlen) (fun hmem => hz (List.mem_cons_of_mem _ hmem))
        intro k hk
        have hs := h (k+1) (Nat.succ_lt_succ hk)
        rw [List.getD_cons_succ] at hs
        rw [← hs]
        congr 1
        omega
      unfold cString
      rw [htail,hc,if_neg]
      rintro rfl
      exact hz List.mem_cons_self

theorem cString_cut_copied (dst src : Mem) : cString (copied dst src) 0 255 = cString src 0 255 := by
  apply cString_of_le (length_cString src 0 255) (zero_notMem_cString src 0 255)
  intro k hk
  rw [Nat.zero_add]
  exact copied_apply dst src hk.le

theorem recall_eq (entry : Mem) (s : LineState) : s.recall shellBufSize entry =
    { s with
      buf := copied s.buf entry
      len := (cString entry 0 255).length
      con := vgaPuts (cString entry 0 255) s.con } := by
  have htext : cString (copied s.buf entry) 0 shellBufSize = cString entry 0 255 := cString_copied _ _ (le_refl 255)
  unfold LineState.recall
  dsimp only
  change ({ s with
    buf := copied s.buf entry
    len := (cString (copied s.buf entry) 0 shellBufSize).length
    con := vgaPuts (cString (copied s.buf entry) 0 shellBufSize) s.con } : LineState) = _
  rw [htext]

/-! ## What the history holds -/

theorem length_entries (h : History) : (entries h).length = min h.count 8 := by
  unfold entries
  rw [List.length_map,List.length_range]
  rfl

theorem historyGet_entries (h : History) (k : ℕ) :
    (entries h)[k]? = (historyGet (k+1) h).map (fun entry => cString entry 0 255) := by
  unfold historyGet
  by_cases hk : k < min h.count 8
  · have hn : ¬ (k+1 = 0 ∨ h.count < k+1 ∨ historySize < k+1) := by
      unfold historySize
      omega
    rw [if_neg hn]
    unfold entries
    rw [List.getElem?_map,List.getElem?_range (show k < min h.count historySize from hk)]
    rfl
  · have hn : k+1 = 0 ∨ h.count < k+1 ∨ historySize < k+1 := by
      unfold historySize
      omega
    rw [if_pos hn,List.getElem?_eq_none (by rw [length_entries]; omega)]
    rfl

/-- A command other than the empty line becomes the newest entry, and the ninth is forgotten. -/
theorem entries_push {cmd : Mem} (hcmd : cmd 0 ≠ 0) (h : History) :
    entries (historyPush cmd h) = (cString cmd 0 255 :: entries h).take 8 := by
  have hpush : historyPush cmd h =
      ⟨Function.update h.text (h.count % 8) (copied (h.text (h.count % 8)) cmd),h.count+1⟩ := if_neg hcmd
  apply List.ext_getElem?
  intro k
  rw [historyGet_entries,hpush]
  unfold historyGet
  dsimp only
  by_cases hk : k < min (h.count+1) 8
  · have hn : ¬ (k+1 = 0 ∨ h.count+1 < k+1 ∨ historySize < k+1) := by
      unfold historySize
      omega
    rw [if_neg hn,Option.map_some,List.getElem?_take_of_lt (by omega)]
    cases k with
    | zero =>
      rw [List.getElem?_cons_zero,Nat.zero_add,Nat.add_sub_cancel]
      unfold historySize
      rw [Function.update_self]
      exact congrArg some (cString_cut_copied _ _)
    | succ k =>
      have hslot : (h.count+1-(k+1+1)) % historySize ≠ h.count % 8 := by
        unfold historySize
        omega
      have hget : ¬ (k+1 = 0 ∨ h.count < k+1 ∨ historySize < k+1) := by
        unfold historySize
        omega
      rw [List.getElem?_cons_succ,historyGet_entries,Function.update_of_ne hslot]
      unfold historyGet
      rw [if_neg hget,Option.map_some,Nat.add_sub_add_right]
  · have hn : k+1 = 0 ∨ h.count+1 < k+1 ∨ historySize < k+1 := by
      unfold historySize
      omega
    rw [if_pos hn,List.getElem?_eq_none]
    · rfl
    · rw [List.length_take,List.length_cons,length_entries]
      omega

/-! ## One key -/

/-- The variables of `read_line` hold a draft. -/
structure Follows (h : History) (s : LineState) (d : Draft) : Prop where
  len : s.len = d.line.length
  text : ∀ i < d.line.length, s.buf i = d.line.getD i 0
  nonzero : 0 ∉ d.line
  pos : s.histPos = d.pos
  known : d.pos ≤ (entries h).length

section OneKey
variable {h : History} {s : LineState} {d : Draft}

theorem follows_recall {entry : Mem} {k : ℕ} (hk : (entries h)[k]? = some (cString entry 0 255))
    (hpos : s.histPos = k+1) : Follows h (s.recall shellBufSize entry) ⟨cString entry 0 255,k+1⟩ := by
  have hlen := length_cString entry 0 255
  rw [recall_eq]
  constructor
  · rfl
  · intro i hi
    exact copied_apply _ _ (by dsimp only at hi; omega)
  · exact zero_notMem_cString entry 0 255
  · exact hpos
  · obtain ⟨hlt,_⟩ := List.getElem?_eq_some_iff.mp hk
    exact hlt

theorem follows_backspace (hf : Follows h s d) :
    Follows h (lineKey h shellBufSize 0x08 s) (editKey (entries h) d 0x08) := by
  obtain ⟨hlen,htext,hz,hpos,hknown⟩ := hf
  unfold lineKey editKey
  rw [if_pos rfl,if_pos rfl]
  by_cases hl : 0 < s.len
  · rw [if_pos hl]
    constructor
    · dsimp only
      rw [hlen,List.length_dropLast]
    · intro i hi
      dsimp only at hi ⊢
      rw [List.length_dropLast] at hi
      rw [htext i (by omega),List.getD_eq_getElem?_getD,List.getD_eq_getElem?_getD,List.getElem?_dropLast,if_pos hi]
    · exact fun hmem => hz (List.dropLast_subset _ hmem)
    · exact hpos
    · exact hknown
  · have hnil : d.line = [] := List.eq_nil_of_length_eq_zero (by omega)
    rw [if_neg hl]
    refine ⟨?_,?_,?_,hpos,hknown⟩
    · dsimp only
      rw [hlen,hnil]
      rfl
    · dsimp only
      rw [hnil]
      intro i hi
      cases hi
    · dsimp only
      rw [hnil]
      exact List.not_mem_nil

-- the two history keys, on the variables and on the draft at once
theorem up_cases (hpos : s.histPos = d.pos) :
    ((entries h)[d.pos]? = none ∧ lineKey h shellBufSize keyUp s = s ∧ editKey (entries h) d keyUp = d) ∨
    ∃ entry, (entries h)[d.pos]? = some (cString entry 0 255) ∧
      lineKey h shellBufSize keyUp s =
        { ({ s with con := eraseInput s.len s.con } : LineState).recall shellBufSize entry with histPos := d.pos+1 } ∧
      editKey (entries h) d keyUp = ⟨cString entry 0 255,d.pos+1⟩ := by
  have hget := historyGet_entries h d.pos
  have hb : ¬ keyUp = 0x08 := by decide
  rw [lineKey,if_neg hb,if_pos rfl,editKey,if_neg hb,if_pos rfl,hpos]
  cases hg : historyGet (d.pos+1) h with
  | none =>
    rw [hg,Option.map_none] at hget
    exact .inl ⟨hget,rfl,by rw [hget]⟩
  | some entry =>
    rw [hg,Option.map_some] at hget
    exact .inr ⟨entry,hget,rfl,by rw [hget]⟩

theorem down_cases (hpos : s.histPos = d.pos) (hknown : d.pos ≤ (entries h).length) :
    (d.pos = 0 ∧ lineKey h shellBufSize keyDown s = s ∧ editKey (entries h) d keyDown = d) ∨
    (0 < d.pos ∧ lineKey h shellBufSize keyDown s =
        ⟨Function.update s.buf 0 0,0,0,eraseInput s.len s.con⟩ ∧ editKey (entries h) d keyDown = ⟨[],0⟩) ∨
    ∃ k entry, d.pos = k+2 ∧ (entries h)[k]? = some (cString entry 0 255) ∧
      lineKey h shellBufSize keyDown s =
        ({ s with con := eraseInput s.len s.con, histPos := k+1 } : LineState).recall shellBufSize entry ∧
      editKey (entries h) d keyDown = ⟨cString entry 0 255,k+1⟩ := by
  have hget := historyGet_entries h (d.pos-2)
  have hb : ¬ keyDown = 0x08 := by decide
  have hu : ¬ keyDown = keyUp := by decide
  obtain ⟨line,pos⟩ := d
  dsimp only at hpos hknown hget
  rw [lineKey,if_neg hb,if_neg hu,if_pos rfl,editKey,if_neg hb,if_neg hu,if_pos rfl,hpos]
  dsimp only
  match pos with
  | 0 => exact .inl ⟨rfl,if_neg (by decide),rfl⟩
  | 1 =>
    rw [if_pos (by decide),if_pos rfl]
    exact .inr (.inl ⟨Nat.one_pos,rfl,rfl⟩)
  | k+2 =>
    rw [if_pos (by omega),if_neg (by omega)]
    have hk : k < (entries h).length := by omega
    rw [Nat.add_sub_cancel,List.getElem?_eq_getElem hk] at hget
    cases hg : historyGet (k+1) h with
    | none =>
      rw [hg] at hget
      cases hget
    | some entry =>
      rw [hg,Option.map_some] at hget
      have hcmd : (entries h).getD k [] = cString entry 0 255 := by
        rw [List.getD_eq_getElem?_getD,List.getElem?_eq_getElem hk,hget]
        rfl
      simp only [show k+2-1 = k+1 from rfl,hg,hcmd]
      exact .inr (.inr ⟨k,entry,rfl,(List.getElem?_eq_getElem hk).trans hget,rfl,rfl⟩)

theorem follows_up (hf : Follows h s d) :
    Follows h (lineKey h shellBufSize keyUp s) (editKey (entries h) d keyUp) := by
  rcases up_cases hf.pos with ⟨_,hline,hedit⟩ | ⟨entry,hget,hline,hedit⟩
  · rw [hline,hedit]
    exact hf
  · have hr := @follows_recall h { s with con := eraseInput s.len s.con, histPos := d.pos+1 } entry d.pos hget rfl
    rw [recall_eq] at hr
    rw [hline,hedit,recall_eq]
    exact hr

theorem follows_down (hf : Follows h s d) :
    Follows h (lineKey h shellBufSize keyDown s) (editKey (entries h) d keyDown) := by
  rcases down_cases hf.pos hf.known with ⟨_,hline,hedit⟩ | ⟨_,hline,hedit⟩ | ⟨k,entry,_,hget,hline,hedit⟩
  · rw [hline,hedit]
    exact hf
  · rw [hline,hedit]
    refine ⟨rfl,?_,List.not_mem_nil,rfl,Nat.zero_le _⟩
    intro i hi
    cases hi
  · rw [hline,hedit]
    exact follows_recall hget rfl

theorem follows_print {c : UInt8} (hf : Follows h s d) (hc : 0x20 ≤ c) :
    Follows h { s with buf := Function.update s.buf s.len c, len := s.len+1, con := vgaPutchar c s.con }
      { d with line := d.line++[c] } := by
  obtain ⟨hlen,htext,hz,hpos,hknown⟩ := hf
  constructor
  · dsimp only
    rw [hlen,List.length_append,List.length_singleton]
  · intro i hi
    dsimp only at hi ⊢
    rw [List.length_append,List.length_singleton] at hi
    rw [hlen]
    by_cases he : i = d.line.length
    · subst he
      rw [Function.update_self,List.getD_eq_getElem?_getD,List.getElem?_append_right (le_refl _),Nat.sub_self]
      rfl
    · rw [Function.update_of_ne he,htext i (by omega),List.getD_eq_getElem?_getD,List.getD_eq_getElem?_getD,
        List.getElem?_append_left (by omega)]
  · intro hmem
    rcases List.mem_append.mp hmem with hmem | hmem
    · exact hz hmem
    · obtain rfl := List.mem_singleton.mp hmem
      exact absurd hc (by decide)
  · exact hpos
  · exact hknown

theorem Follows.key (hf : Follows h s d) (hroom : d.line.length < 255) (c : UInt8) :
    Follows h (lineKey h shellBufSize c s) (editKey (entries h) d c) := by
  by_cases h1 : c = 0x08
  · subst h1
    exact follows_backspace hf
  · by_cases h2 : c = keyUp
    · subst h2
      exact follows_up hf
    · by_cases h3 : c = keyDown
      · subst h3
        exact follows_down hf
      · unfold lineKey editKey
        rw [if_neg h1,if_neg h2,if_neg h3,if_neg h1,if_neg h2,if_neg h3]
        by_cases h4 : 0x20 ≤ c ∧ c < 0x80
        · rw [if_pos h4,if_pos h4,if_pos (show d.line.length < shellBufSize-1 from hroom)]
          exact follows_print hf h4.1
        · rw [if_neg h4,if_neg h4]
          exact hf

end OneKey

/-! ## Whole lines -/

theorem follows_start (h : History) (buf : Mem) (con : Console) : Follows h (.start buf con) ⟨[],0⟩ := by
  refine ⟨rfl,?_,List.not_mem_nil,rfl,Nat.zero_le _⟩
  intro i hi
  cases hi

theorem cString_finish {h : History} {s : LineState} {d : Draft} (hf : Follows h s d) (hroom : d.line.length ≤ 255) :
    cString s.finish.buf 0 shellBufSize = d.line := by
  apply cString_of_getD (show d.line.length < 256 by omega) hf.nonzero
  intro k hk
  unfold LineState.finish
  dsimp only
  rw [Nat.zero_add,hf.len]
  by_cases he : k = d.line.length
  · rw [he,Function.update_self,List.getD_eq_getElem?_getD,List.getElem?_eq_none (le_refl _)]
    rfl
  · rw [Function.update_of_ne he]
    exact hf.text k (by omega)

section Lines
variable {h : History}

/-- The line stays shorter than 255 characters before the first Enter. -/
def StaysShort (cmds : List Bytes) (d : Draft) (keys : List UInt8) : Prop :=
  ∀ pre, pre <+: keys → 0x0A ∉ pre → (pre.foldl (editKey cmds) d).line.length < 255

theorem StaysShort.now {cmds : List Bytes} {d : Draft} {keys : List UInt8} (hs : StaysShort cmds d keys) :
    d.line.length < 255 := hs [] (List.nil_prefix) List.not_mem_nil

theorem StaysShort.next {cmds : List Bytes} {d : Draft} {c : UInt8} {keys : List UInt8}
    (hs : StaysShort cmds d (c :: keys)) (hc : c ≠ 0x0A) : StaysShort cmds (editKey cmds d c) keys := by
  intro pre hpre hn
  apply hs (c :: pre) ((List.prefix_cons_inj c).mpr hpre)
  intro hmem
  rcases List.mem_cons.mp hmem with he | hmem
  · exact hc he.symm
  · exact hn hmem

theorem readLine_short {keys : List UInt8} {s : LineState} {d : Draft} (hf : Follows h s d)
    (hs : StaysShort (entries h) d keys) :
    (∀ pre post, keys = pre++0x0A :: post → 0x0A ∉ pre → ∃ s', readLine h shellBufSize keys s = .returned s' post ∧
      cString s'.buf 0 shellBufSize = (pre.foldl (editKey (entries h)) d).line) ∧
    (0x0A ∉ keys → ∃ s', readLine h shellBufSize keys s = .waiting s') := by
  induction keys generalizing s d with
  | nil =>
    have hlen : s.len < shellBufSize-1 := hf.len.trans_lt hs.now
    refine ⟨?_,fun _ => ⟨s,if_pos hlen⟩⟩
    intro pre post he
    cases pre <;> cases he
  | cons c keys ih =>
    have hlen : s.len < shellBufSize-1 := hf.len.trans_lt hs.now
    rw [readLine,if_pos hlen]
    by_cases hc : c = 0x0A
    · subst hc
      rw [if_pos rfl]
      refine ⟨?_,fun hn => absurd List.mem_cons_self hn⟩
      intro pre post he hn
      cases pre with
      | nil =>
        cases he
        exact ⟨_,rfl,cString_finish ⟨hf.len,hf.text,hf.nonzero,hf.pos,hf.known⟩ hs.now.le⟩
      | cons c' pre =>
        cases he
        exact absurd List.mem_cons_self hn
    · rw [if_neg hc]
      obtain ⟨hret,hwait⟩ := ih (hf.key hs.now c) (hs.next hc)
      constructor
      · intro pre post he hn
        cases pre with
        | nil =>
          cases he
          exact absurd rfl hc
        | cons c' pre =>
          cases he
          exact hret pre post rfl (fun hmem => hn (List.mem_cons_of_mem _ hmem))
      · intro hn
        exact hwait (fun hmem => hn (List.mem_cons_of_mem _ hmem))

theorem readLine_stop (keys : List UInt8) {s : LineState} (hlen : 255 ≤ s.len) :
    readLine h shellBufSize keys s = .returned s.finish keys := by
  have hn : ¬ s.len < shellBufSize-1 := not_lt.mpr hlen
  cases keys with
  | nil => exact if_neg hn
  | cons c keys => exact if_neg hn

/-- A full line is returned without an Enter. -/
theorem readLine_full {keys : List UInt8} {s : LineState} {d : Draft} (hf : Follows h s d)
    (hs : ¬ StaysShort (entries h) d keys) : ∃ pre post s', keys = pre++post ∧ 0x0A ∉ pre ∧
      readLine h shellBufSize keys s = .returned s' post := by
  by_cases hroom : d.line.length < 255
  · have hlen : s.len < shellBufSize-1 := hf.len.trans_lt hroom
    induction keys generalizing s d with
    | nil =>
      exfalso
      apply hs
      intro pre hpre _
      rw [List.prefix_nil.mp hpre]
      exact hroom
    | cons c keys ih =>
      have hc : c ≠ 0x0A := by
        rintro rfl
        apply hs
        intro pre hpre hn
        cases pre with
        | nil => exact hroom
        | cons c' pre =>
          obtain ⟨rfl,_⟩ := List.cons_prefix_cons.mp hpre
          exact absurd List.mem_cons_self hn
      have hf' := hf.key hroom c
      have hs' : ¬ StaysShort (entries h) (editKey (entries h) d c) keys := by
        intro hs'
        apply hs
        intro pre hpre hn
        cases pre with
        | nil => exact hroom
        | cons c' pre =>
          obtain ⟨rfl,htail⟩ := List.cons_prefix_cons.mp hpre
          exact hs' pre htail (fun hmem => hn (List.mem_cons_of_mem _ hmem))
      rw [readLine,if_pos hlen,if_neg hc]
      by_cases hroom' : (editKey (entries h) d c).line.length < 255
      · obtain ⟨pre,post,s',he,hn,hr⟩ := ih hf' hs' hroom' (hf'.len.trans_lt hroom')
        refine ⟨c :: pre,post,s',congrArg (c :: ·) he,?_,hr⟩
        intro hmem
        rcases List.mem_cons.mp hmem with hmem | hmem
        · exact hc hmem.symm
        · exact hn hmem
      · refine ⟨[c],keys,_,rfl,by simpa using Ne.symm hc,readLine_stop _ ?_⟩
        have := hf'.len
        omega
  · exact ⟨[],keys,_,rfl,List.not_mem_nil,readLine_stop _ (by have := hf.len; omega)⟩

theorem not_submits_of_full {buf : Mem} {con : Console} {keys : List UInt8}
    (hs : ¬ StaysShort (entries h) ⟨[],0⟩ keys) : ¬ Submits h buf con keys := by
  intro hsub
  obtain ⟨pre,post,s,he,hn,hr⟩ := readLine_full (follows_start h buf con) hs
  by_cases hmem : 0x0A ∈ keys
  · obtain ⟨pre',post',hkeys,hfirst⟩ := List.eq_append_cons_of_mem hmem
    obtain ⟨s',hr',_⟩ := hsub.enter pre' post' hkeys hfirst
    rw [hr] at hr'
    obtain rfl : post = post' := by
      cases hr'
      rfl
    -- what was consumed would end with the Enter
    have hpre : pre = pre'++[0x0A] := by
      have happ : pre++post = pre'++[0x0A]++post := by
        rw [← he,hkeys,List.append_assoc]
        rfl
      exact List.append_cancel_right happ
    apply hn
    rw [hpre]
    exact List.mem_append_right _ List.mem_cons_self
  · obtain ⟨s',hw⟩ := hsub.open_line hmem
    rw [hr] at hw
    cases hw

end Lines

/-- `read_line` is the reference editor on a key stream exactly when the line never reaches 255 characters before
the first Enter, neither by typing nor by recall. -/
theorem readLine_submits_iff (h : History) (buf : Mem) (con : Console) (keys : List UInt8) :
    Submits h buf con keys ↔
      ∀ pre, pre <+: keys → 0x0A ∉ pre → (edited (entries h) pre).line.length < 255 := by
  constructor
  · intro hsub
    by_contra hs
    exact not_submits_of_full hs hsub
  · intro hs
    obtain ⟨hret,hwait⟩ := readLine_short (follows_start h buf con) hs
    exact ⟨hret,hwait⟩

/-- 255 times the letter `a`, then Enter, with an empty history. -/
theorem full_line_not_submitted : ¬ Submits ⟨fun _ _ => 0,0⟩ (fun _ => 0) ⟨fun _ => 0,0,8,0x07,[],0⟩
    (List.replicate 255 0x61++[0x0A]) := by
  apply not_submits_of_full
  intro hs
  have hfull := hs (List.replicate 255 0x61) (List.prefix_append _ _) (by decide +kernel)
  exact absurd hfull (by decide +kernel)

end VesperOS.ReadLine
