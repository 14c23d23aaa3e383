import VesperOS.Shell.ScreenLine

/-! # The last eight commands

The ring behind `history_push` and `history_get` against the list of everything that was
pushed. The counter only grows, so a slot is found by its distance from the newest entry.
-/
namespace VesperOS.CommandHistory
open ByteMemory VesperFs StoredNames Vga ReadLine ScreenLine

/-- The string at the start of a buffer of the shell. -/
def str (m : Mem) : Bytes := cString m 0 shellBufSize

/-- A string of at most 255 characters. -/
def Fits (cmd : Mem) : Prop := ∃ k < shellBufSize, cmd k = 0

/-- The history after some pushes; before the first one its memory is zero. -/
def pushAll (cmds : List Mem) : History := cmds.foldl (fun h cmd => historyPush cmd h) ⟨fun _ _ => 0,0⟩

/-- The strings that were pushed, without the empty ones, newest first. -/
def recent (cmds : List Mem) : List Bytes := ((cmds.map str).filter (fun s => decide (s ≠ []))).reverse

/-- Where `read_line` is after some keys. -/
def Reading.state : Reading → LineState
  | .waiting s => s
  | .returned s _ => s

/-- `history_get` gives the last eight commands, and `read_line` never stands at a position without one. The keys are
those up to any moment of its run. -/
structure LastEight (cmds : List Mem) : Prop where
  get : ∀ k, 1 ≤ k → (historyGet k (pushAll cmds)).map str = if k ≤ 8 then (recent cmds)[k-1]? else none
  browse : ∀ maxLen buf con keys pos, (Reading.state (readLine (pushAll cmds) maxLen keys (.start buf con))).histPos = pos →
    pos = 0 ∨ (historyGet pos (pushAll cmds)).isSome

/-! ## Strings with an end -/

theorem cString_succ {m : Mem} {a n : ℕ} (h : ∃ k ≤ n, m (a+k) = 0) : cString m a (n+1) = cString m a n := by
  induction n generalizing a with
  | zero =>
    obtain ⟨k,hk,hz⟩ := h
    obtain rfl : k = 0 := Nat.le_zero.mp hk
    unfold cString
    exact if_pos hz
  | succ n ih =>
    obtain ⟨k,hk,hz⟩ := h
    change (if m a = 0 then [] else m a :: cString m (a+1) (n+1)) = if m a = 0 then [] else m a :: cString m (a+1) n
    by_cases h0 : m a = 0
    · rw [if_pos h0,if_pos h0]
    · have hk0 : k ≠ 0 := by
        rintro rfl
        exact h0 hz
      have hend : m (a+1+(k-1)) = 0 := by rwa [show a+1+(k-1) = a+k by omega]
      rw [ih ⟨k-1,by omega,hend⟩]

theorem str_eq {cmd : Mem} (h : Fits cmd) : str cmd = cString cmd 0 255 := by
  obtain ⟨k,hk,hz⟩ := h
  have hk : k < 256 := hk
  exact cString_succ ⟨k,by omega,by rwa [Nat.zero_add]⟩

theorem str_eq_nil {cmd : Mem} : str cmd = [] ↔ cmd 0 = 0 := by
  unfold str shellBufSize
  rw [cString]
  split
  · rename_i h
    exact iff_of_true rfl h
  · rename_i h
    exact iff_of_false (List.cons_ne_nil _ _) h

/-! ## The ring -/

theorem pushAll_snoc (cmds : List Mem) (cmd : Mem) : pushAll (cmds++[cmd]) = historyPush cmd (pushAll cmds) := by
  unfold pushAll
  rw [List.foldl_append]
  rfl

theorem recent_snoc (cmds : List Mem) (cmd : Mem) :
    recent (cmds++[cmd]) = if cmd 0 = 0 then recent cmds else str cmd :: recent cmds := by
  unfold recent
  rw [List.map_append,List.filter_append,List.reverse_append]
  by_cases h : cmd 0 = 0
  · rw [if_pos h]
    simp [str_eq_nil.mpr h]
  · rw [if_neg h]
    simp [mt str_eq_nil.mp h]

/-- What a slot holds ends inside of it. -/
theorem slot_fits (cmds : List Mem) (slot : ℕ) : Fits ((pushAll cmds).text slot) := by
  induction cmds using List.reverseRecOn generalizing slot with
  | nil => exact ⟨0,by decide,rfl⟩
  | append_singleton cmds cmd ih =>
    rw [pushAll_snoc]
    unfold historyPush
    split
    · exact ih slot
    · dsimp only
      by_cases hs : slot = (pushAll cmds).count % historySize
      · subst hs
        rw [Function.update_self]
        exact ⟨255,by decide,Function.update_self _ _ _⟩
      · rw [Function.update_of_ne hs]
        exact ih slot

theorem entries_pushAll (cmds : List Mem) (h : ∀ cmd ∈ cmds, Fits cmd) : entries (pushAll cmds) = (recent cmds).take 8 := by
  induction cmds using List.reverseRecOn with
  | nil => rfl
  | append_singleton cmds cmd ih =>
    have hcmd := h cmd (List.mem_append_right _ List.mem_cons_self)
    have hrest := ih fun c hc => h c (List.mem_append_left _ hc)
    rw [pushAll_snoc,recent_snoc]
    by_cases h0 : cmd 0 = 0
    · rw [if_pos h0,historyPush,if_pos h0]
      exact hrest
    · rw [if_neg h0,entries_push h0,hrest,str_eq hcmd]
      -- forgetting the ninth entry before the push or after it is the same
      simp [List.take_succ_cons,List.take_take]

theorem historyGet_recent (cmds : List Mem) (h : ∀ cmd ∈ cmds, Fits cmd) (k : ℕ) :
    (historyGet (k+1) (pushAll cmds)).map str = if k < 8 then (recent cmds)[k]? else none := by
  have hmap : (historyGet (k+1) (pushAll cmds)).map str =
      (historyGet (k+1) (pushAll cmds)).map (fun entry => cString entry 0 255) := by
    apply Option.map_congr
    intro entry hentry
    unfold historyGet at hentry
    split at hentry
    · cases hentry
    · obtain rfl := Option.some.inj hentry
      exact str_eq (slot_fits cmds _)
  rw [hmap,← historyGet_entries,entries_pushAll cmds h,List.getElem?_take]

/-! ## The browsing position -/

/-- The start of the browsing or the position of a command. -/
def AtEntry (h : History) (pos : ℕ) : Prop := pos = 0 ∨ (historyGet pos h).isSome

theorem AtEntry.newer {h : History} {pos : ℕ} (ha : AtEntry h pos) : AtEntry h (pos-1) := by
  rcases ha with rfl | hs
  · exact .inl rfl
  · by_cases h1 : pos-1 = 0
    · exact .inl h1
    · right
      unfold historyGet at hs ⊢
      split at hs
      · cases hs
      · rw [if_neg (by omega)]
        rfl

theorem AtEntry.key {h : History} {s : LineState} (ha : AtEntry h s.histPos) (maxLen : ℕ) (c : UInt8) :
    AtEntry h (lineKey h maxLen c s).histPos := by
  unfold lineKey
  split
  · split
    · exact ha
    · exact ha
  · split
    · cases hget : historyGet (s.histPos+1) h with
      | none => exact ha
      | some entry => exact .inr (by dsimp only; rw [hget]; rfl)
    · split
      · split
        · dsimp only
          split
          · exact ha.newer
          · cases hget : historyGet (s.histPos-1) h with
            | none => exact ha.newer
            | some entry => exact ha.newer
        · exact ha
      · split
        · exact ha
        · exact ha

theorem AtEntry.readLine {h : History} (maxLen : ℕ) (keys : List UInt8) {s : LineState} (ha : AtEntry h s.histPos) :
    AtEntry h (Reading.state (ReadLine.readLine h maxLen keys s)).histPos := by
  induction keys generalizing s with
  | nil =>
    unfold ReadLine.readLine
    split
    · exact ha
    · exact ha
  | cons c keys ih =>
    unfold ReadLine.readLine
    split
    · split
      · exact ha
      · exact ih (ha.key maxLen c)
    · exact ha

/-! ## The history of the shell -/

theorem length_recall (entry : Mem) (s : LineState) : (s.recall shellBufSize entry).len ≤ 255 := by
  rw [recall_eq]
  exact length_cString entry 0 255

theorem length_key {h : History} {s : LineState} (hlen : s.len < 255) (c : UInt8) :
    (lineKey h shellBufSize c s).len ≤ 255 := by
  unfold lineKey
  split
  · split
    · dsimp only
      omega
    · omega
  · split
    · cases historyGet (s.histPos+1) h with
      | none => exact hlen.le
      | some entry => exact length_recall entry s
    · split
      · split
        · dsimp only
          split
          · exact Nat.zero_le _
          · cases historyGet (s.histPos-1) h with
            | none => exact hlen.le
            | some entry => exact length_recall entry _
        · exact hlen.le
      · split
        · exact hlen
        · exact hlen.le

theorem fits_finish {s : LineState} (hlen : s.len ≤ 255) : Fits s.finish.buf :=
  ⟨s.len,Nat.lt_succ_of_le hlen,Function.update_self _ _ _⟩

/-- A line that `read_line` returns ends inside of the buffer. -/
theorem fits_returned {h : History} {keys rest : List UInt8} {s t : LineState} (hlen : s.len ≤ 255)
    (hr : readLine h shellBufSize keys s = .returned t rest) : Fits t.buf := by
  induction keys generalizing s with
  | nil =>
    unfold readLine at hr
    split at hr
    · cases hr
    · cases hr
      exact fits_finish hlen
  | cons c keys ih =>
    unfold readLine at hr
    split at hr
    · rename_i hroom
      split at hr
      · cases hr
        exact fits_finish hlen
      · exact ih (length_key hroom c) hr
    · cases hr
      exact fits_finish hlen

/-- The shell pushes nothing but strings that fit. -/
theorem shellHistory_pushAll {h : History} (hs : ShellHistory h) : ∃ cmds, (∀ cmd ∈ cmds, Fits cmd) ∧ h = pushAll cmds := by
  induction hs with
  | boot => exact ⟨[],fun _ hc => absurd hc List.not_mem_nil,rfl⟩
  | @line h buf con keys rest s _ hr ih =>
    obtain ⟨cmds,hfits,rfl⟩ := ih
    refine ⟨cmds++[s.buf],?_,(pushAll_snoc cmds s.buf).symm⟩
    intro cmd hc
    rcases List.mem_append.mp hc with hc | hc
    · exact hfits cmd hc
    · obtain rfl := List.mem_singleton.mp hc
      exact fits_returned (Nat.zero_le _) hr

/-- The command history is the list of the last eight commands. -/
theorem history_last_eight (cmds : List Mem) (h : ∀ cmd ∈ cmds, Fits cmd) : LastEight cmds := by
  constructor
  · intro k hk
    obtain ⟨k,rfl⟩ := Nat.exists_eq_add_of_le' hk
    rw [historyGet_recent cmds h k,Nat.add_sub_cancel]
    rfl
  · rintro maxLen buf con keys pos rfl
    exact AtEntry.readLine maxLen keys (.inl rfl)

/-- "ls", an empty line and "ps". -/
theorem history_last_eight_ls :
    LastEight [fun i => [0x6C,0x73].getD i 0,fun _ => 0,fun i => [0x70,0x73].getD i 0] := by
  apply history_last_eight
  intro cmd hc
  rcases List.mem_cons.mp hc with rfl | hc
  · exact ⟨2,by decide,rfl⟩
  · rcases List.mem_cons.mp hc with rfl | hc
    · exact ⟨0,by decide,rfl⟩
    · obtain rfl := List.mem_singleton.mp hc
      exact ⟨2,by decide,rfl⟩

end VesperOS.CommandHistory
