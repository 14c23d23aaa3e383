import Mathlib.Data.List.TakeWhile
import VesperOS.Console.Printf
import VesperOS.Shell.KillCommand

/-! # Decimal numbers, printed and read

The loops of `vga_print_uint` and `vga_print_uint_padded` store the digits of a number in a
small buffer, the last one first, and print the buffer backwards. The digit loop of the shell
commands reads the number again.
-/
namespace VesperOS.Decimals
open Vga KillCommand
open Printf hiding isDigit

/-! ## The digit buffer -/

/-- `buf` and `i`, with the indices stored to so far. -/
structure DigitBuf where
  buf : ℕ → UInt8
  i : ℕ
  stores : List ℕ

/-- `buf[i++] = c`. -/
def DigitBuf.store (c : UInt8) (b : DigitBuf) : DigitBuf := ⟨Function.update b.buf b.i c,b.i+1,b.stores++[b.i]⟩

def digitChar (d : ℕ) : UInt8 := UInt8.ofNat (0x30+d)

def storeLoop (n : ℕ) (b : DigitBuf) : DigitBuf :=
  if n = 0 then b else storeLoop (n/10) (b.store (digitChar (n % 10)))
termination_by n
decreasing_by omega

/-- The buffer from its last byte down to the first. -/
def DigitBuf.backwards (b : DigitBuf) : Text := (List.range b.i).reverse.map b.buf

/-- The characters given to `vga_putchar`, and the indices of the buffer that were stored to. -/
structure Output where
  chars : Text
  stores : List ℕ

/-- The buffer is not initialised. -/
def printUint (junk : ℕ → UInt8) (n : UInt32) : Output :=
  if n = 0 then ⟨[0x30],[]⟩
  else
    let b := storeLoop n.toNat ⟨junk,0,[]⟩
    ⟨b.backwards,b.stores⟩

def printUintPadded (junk : ℕ → UInt8) (n : UInt32) (width : ℤ) : Output :=
  let b := if n = 0 then DigitBuf.store 0x30 ⟨junk,0,[]⟩ else storeLoop n.toNat ⟨junk,0,[]⟩
  ⟨List.replicate (width-b.i).toNat 0x30++b.backwards,b.stores⟩

/-! ## Numerals -/

/-- The value of a string of digits. -/
def value (s : Text) : ℕ := s.foldl (fun v c => v*10+(c.toNat-0x30)) 0

/-- The decimal numeral of a number without leading zeros. -/
structure Canonical (n : ℕ) (s : Text) : Prop where
  digits : ∀ c ∈ s, isDigit c = true
  value : Decimals.value s = n
  nonempty : s ≠ []
  leading : s.head? = some 0x30 → s = [0x30]

structure DecimalOutput (junk : ℕ → UInt8) (n : UInt32) (w : ℕ) : Prop where
  plain : Canonical n.toNat (printUint junk n).chars
  padded_length : (printUintPadded junk n w).chars.length = max w (printUint junk n).chars.length
  padded_digits : ∀ c ∈ (printUintPadded junk n w).chars, isDigit c = true
  padded_value : value (printUintPadded junk n w).chars = n.toNat
  plain_stores : ∀ i ∈ (printUint junk n).stores, i < 12
  padded_stores : ∀ i ∈ (printUintPadded junk n w).stores, i < 10
  plain_read : digitLoop 0 (printUint junk n).chars = n.toNat
  padded_read : digitLoop 0 (printUintPadded junk n w).chars = n.toNat

/-! ## What the loop leaves -/

theorem backwards_store (b : DigitBuf) (c : UInt8) : (b.store c).backwards = c :: b.backwards := by
  unfold DigitBuf.backwards DigitBuf.store
  dsimp only
  rw [List.range_succ,List.reverse_append,List.reverse_singleton,List.singleton_append,List.map_cons,Function.update_self]
  congr 1
  apply List.map_congr_left
  intro j hj
  rw [List.mem_reverse,List.mem_range] at hj
  exact Function.update_of_ne hj.ne _ _

/-- The digits come out in front of what was in the buffer. -/
theorem backwards_storeLoop (n : ℕ) (b : DigitBuf) :
    (storeLoop n b).backwards = ((Nat.digits 10 n).map digitChar).reverse++b.backwards := by
  induction n, b using storeLoop.induct with
  | case1 b =>
    rw [storeLoop,if_pos rfl]
    rfl
  | case2 n b hn ih =>
    rw [storeLoop,if_neg hn,ih,backwards_store,Nat.digits_def' (by decide) (Nat.pos_of_ne_zero hn)]
    simp

theorem i_storeLoop (n : ℕ) (b : DigitBuf) : (storeLoop n b).i = b.i+(Nat.digits 10 n).length := by
  induction n, b using storeLoop.induct with
  | case1 b =>
    rw [storeLoop,if_pos rfl]
    rfl
  | case2 n b hn ih =>
    rw [storeLoop,if_neg hn,ih,Nat.digits_def' (by decide) (Nat.pos_of_ne_zero hn),List.length_cons]
    unfold DigitBuf.store
    dsimp only
    omega

/-- Everything was stored below `i`. -/
def DigitBuf.Below (b : DigitBuf) : Prop := ∀ j ∈ b.stores, j < b.i

theorem DigitBuf.Below.store {b : DigitBuf} (h : b.Below) (c : UInt8) : (b.store c).Below := by
  intro j hj
  rcases List.mem_append.mp hj with hj | hj
  · exact (h j hj).trans (Nat.lt_succ_self b.i)
  · obtain rfl := List.mem_singleton.mp hj
    exact Nat.lt_succ_self _

theorem DigitBuf.Below.storeLoop {n : ℕ} {b : DigitBuf} (h : b.Below) : (storeLoop n b).Below := by
  induction n, b using storeLoop.induct with
  | case1 b =>
    rw [Decimals.storeLoop,if_pos rfl]
    exact h
  | case2 n b hn ih =>
    rw [Decimals.storeLoop,if_neg hn]
    exact ih (h.store _)

/-- The numeral with the digits that the printing functions of the console go through. -/
def numeralText (n : ℕ) : Text := ((storedDigits 10 n).map digitChar).reverse

theorem chars_printUint (junk : ℕ → UInt8) (n : UInt32) : (printUint junk n).chars = numeralText n.toNat := by
  unfold printUint numeralText storedDigits
  by_cases hn : n = 0
  · subst hn
    rfl
  · have hne : n.toNat ≠ 0 := fun h => hn (UInt32.toNat_inj.mp h)
    rw [if_neg hn,if_neg hne]
    dsimp only
    rw [backwards_storeLoop]
    exact List.append_nil _

theorem chars_printUintPadded (junk : ℕ → UInt8) (n : UInt32) (w : ℕ) : (printUintPadded junk n w).chars =
    List.replicate (w-(numeralText n.toNat).length) 0x30++numeralText n.toNat := by
  unfold printUintPadded numeralText storedDigits
  by_cases hn : n = 0
  · subst hn
    rw [if_pos rfl]
    change List.replicate ((w:ℤ)-(1:ℕ)).toNat 0x30++[0x30] = _
    rw [Int.toNat_sub]
    rfl
  · have hne : n.toNat ≠ 0 := fun h => hn (UInt32.toNat_inj.mp h)
    rw [if_neg hn,if_neg hne]
    dsimp only
    rw [backwards_storeLoop,i_storeLoop,List.length_reverse,List.length_map,Nat.zero_add,Int.toNat_sub]
    congr 1
    exact List.append_nil _

/-! ## The digits of a number -/

theorem storedDigits_lt {n d : ℕ} (h : d ∈ storedDigits 10 n) : d < 10 := by
  unfold storedDigits at h
  split at h
  · obtain rfl := List.mem_singleton.mp h
    decide
  · exact Nat.digits_lt_base (by decide) h

theorem ofDigits_storedDigits (n : ℕ) : Nat.ofDigits 10 (storedDigits 10 n) = n := by
  unfold storedDigits
  split
  · rename_i h
    rw [h]
    rfl
  · exact Nat.ofDigits_digits 10 n

theorem digitChar_spec {d : ℕ} (h : d < 10) : isDigit (digitChar d) = true ∧ (digitChar d).toNat-0x30 = d := by
  interval_cases d <;> decide

theorem value_snoc (s : Text) (c : UInt8) : value (s++[c]) = value s*10+(c.toNat-0x30) := by
  unfold value
  rw [List.foldl_append]
  rfl

theorem value_zeros (k : ℕ) (s : Text) : value (List.replicate k 0x30++s) = value s := by
  induction k with
  | zero => rfl
  | succ k ih => exact ih

theorem value_reverse {ds : List ℕ} (h : ∀ d ∈ ds, d < 10) : value (ds.map digitChar).reverse = Nat.ofDigits 10 ds := by
  induction ds with
  | nil => rfl
  | cons d ds ih =>
    have hd := (digitChar_spec (h d List.mem_cons_self)).2
    have hrest := ih fun e he => h e (List.mem_cons_of_mem _ he)
    rw [List.map_cons,List.reverse_cons,value_snoc,hrest,hd,Nat.ofDigits_cons]
    ring

/-- What is printed has no leading zero: the last digit that was stored is not zero. -/
theorem head_numeralText {n : ℕ} (h : (numeralText n).head? = some 0x30) : numeralText n = [0x30] := by
  unfold numeralText storedDigits at h ⊢
  split at h
  · rename_i hn
    rw [if_pos hn]
    rfl
  · rename_i hn
    have hne : Nat.digits 10 n ≠ [] := Nat.digits_ne_nil_iff_ne_zero.mpr hn
    have hlast := Nat.getLast_digit_ne_zero 10 hn
    have hlt : (Nat.digits 10 n).getLast hne < 10 := Nat.digits_lt_base (by decide) (List.getLast_mem hne)
    rw [List.head?_reverse,List.getLast?_map,List.getLast?_eq_some_getLast hne,Option.map_some,Option.some.injEq] at h
    have hzero := (digitChar_spec hlt).2
    rw [h] at hzero
    exact absurd hzero.symm hlast

theorem canonical_numeralText (n : ℕ) : Canonical n (numeralText n) where
  digits := by
    intro c hc
    obtain ⟨d,hd,rfl⟩ := List.mem_map.mp (List.mem_reverse.mp hc)
    exact (digitChar_spec (storedDigits_lt hd)).1
  value := (value_reverse fun _ hd => storedDigits_lt hd).trans (ofDigits_storedDigits n)
  nonempty := by
    unfold numeralText storedDigits
    split
    · decide
    · rename_i hn
      simpa using Nat.digits_ne_nil_iff_ne_zero.mpr hn
  leading := head_numeralText

theorem digitChar_of_isDigit {c : UInt8} (h : isDigit c = true) :
    c.toNat-0x30 < 10 ∧ digitChar (c.toNat-0x30) = c := by
  unfold isDigit at h
  obtain ⟨hlo,hhi⟩ := of_decide_eq_true h
  have hlo : 48 ≤ c.toNat := hlo
  have hhi : c.toNat ≤ 57 := hhi
  refine ⟨by omega,?_⟩
  unfold digitChar
  rw [Nat.add_sub_of_le hlo]
  exact UInt8.ofNat_toNat

/-- There is one canonical numeral of a number, and it is the one that is printed. -/
theorem Canonical.eq_numeralText {n : ℕ} {s : Text} (h : Canonical n s) : s = numeralText n := by
  by_cases hzero : s.head? = some 0x30
  · have hs := h.leading hzero
    have hn := h.value
    rw [hs] at hn ⊢
    rw [← hn]
    rfl
  · obtain ⟨ds,hds⟩ : ∃ ds : List ℕ, ds = s.reverse.map (fun c => c.toNat-0x30) := ⟨_,rfl⟩
    have hlt : ∀ d ∈ ds, d < 10 := by
      intro d hd
      rw [hds] at hd
      obtain ⟨c,hc,rfl⟩ := List.mem_map.mp hd
      exact (digitChar_of_isDigit (h.digits c (List.mem_reverse.mp hc))).1
    have htext : ds.map digitChar = s.reverse := by
      rw [hds,List.map_map]
      exact (List.map_congr_left fun c hc => (digitChar_of_isDigit (h.digits c (List.mem_reverse.mp hc))).2).trans
        (List.map_id _)
    have hlast (hne : ds ≠ []) : ds.getLast hne ≠ 0 := by
      intro h0
      apply hzero
      rw [← List.getLast?_reverse,← htext,List.getLast?_map,List.getLast?_eq_some_getLast hne,h0]
      rfl
    have hvalue : Nat.ofDigits 10 ds = n := by
      rw [← value_reverse hlt,htext,List.reverse_reverse]
      exact h.value
    have hdigits : Nat.digits 10 n = ds := by
      rw [← hvalue]
      exact Nat.digits_ofDigits 10 (by decide) ds hlt hlast
    have hn : n ≠ 0 := by
      rintro rfl
      rw [Nat.digits_zero] at hdigits
      rw [← hdigits] at htext
      exact h.nonempty (List.reverse_eq_nil_iff.mp htext.symm)
    unfold numeralText storedDigits
    rw [if_neg hn,hdigits,htext,List.reverse_reverse]

/-! ## Reading a number back -/

theorem digitLoop_value {s : Text} (h : ∀ c ∈ s, isDigit c = true) (hlt : value s < 2^32) : digitLoop 0 s = value s := by
  have htake : s.takeWhile isDigit = s := List.takeWhile_eq_self_iff.mpr h
  rw [digitLoop_numeral,numeral,htake]
  exact Nat.mod_eq_of_lt hlt

theorem isDigit_padded {n k : ℕ} : ∀ c ∈ List.replicate k 0x30++numeralText n, isDigit c = true := by
  intro c hc
  rcases List.mem_append.mp hc with hc | hc
  · rw [List.eq_of_mem_replicate hc]
    decide
  · exact (canonical_numeralText n).digits c hc

/-! ## The stores -/

theorem length_digits (n : UInt32) : (Nat.digits 10 n.toNat).length ≤ 10 := by
  have hlt := n.toNat_lt
  rw [Nat.digits_length_le_iff (by decide)]
  omega

theorem stores_printUint (junk : ℕ → UInt8) (n : UInt32) : ∀ i ∈ (printUint junk n).stores, i < 10 := by
  unfold printUint
  split
  · exact fun _ hi => absurd hi List.not_mem_nil
  · intro i hi
    have hbelow : (storeLoop n.toNat ⟨junk,0,[]⟩).Below := DigitBuf.Below.storeLoop fun _ hj => absurd hj List.not_mem_nil
    have hlt := hbelow i hi
    have hlen := length_digits n
    rw [i_storeLoop] at hlt
    dsimp only at hlt
    omega

theorem stores_printUintPadded (junk : ℕ → UInt8) (n : UInt32) (w : ℤ) : ∀ i ∈ (printUintPadded junk n w).stores, i < 10 := by
  by_cases hn : n = 0
  · subst hn
    intro i hi
    obtain rfl := List.mem_singleton.mp hi
    exact Nat.succ_pos 9
  · have hs : (printUintPadded junk n w).stores = (printUint junk n).stores := by
      unfold printUintPadded printUint
      rw [if_neg hn,if_neg hn]
    rw [hs]
    exact stores_printUint junk n

/-! ## The console -/

/-- The loops are what the console module prints. -/
theorem vgaPrintUint_chars (junk : ℕ → UInt8) (n : UInt32) (con : Console) :
    vgaPrintUint n con = vgaPuts (printUint junk n).chars con := by
  rw [chars_printUint]
  rfl

theorem vgaPrintUintPadded_chars (junk : ℕ → UInt8) (n : UInt32) (w : ℕ) (con : Console) :
    vgaPrintUintPadded n w con = vgaPuts (printUintPadded junk n w).chars con := by
  rw [chars_printUintPadded]
  unfold vgaPrintUintPadded numeralText
  dsimp only
  rw [List.length_reverse,List.length_map,List.length_map,Int.toNat_sub]
  rfl

/-- Printing and reading decimal numbers are inverse, and no digit is stored outside of its buffer. -/
theorem decimal_inverse (junk : ℕ → UInt8) (n : UInt32) (w : ℕ) : DecimalOutput junk n w := by
  have hcan := canonical_numeralText n.toNat
  have hpadded : value (List.replicate (w-(numeralText n.toNat).length) 0x30++numeralText n.toNat) = n.toNat :=
    (value_zeros _ _).trans hcan.value
  constructor
  · rw [chars_printUint]
    exact hcan
  · rw [chars_printUint,chars_printUintPadded,List.length_append,List.length_replicate]
    omega
  · rw [chars_printUintPadded]
    exact isDigit_padded
  · rw [chars_printUintPadded]
    exact hpadded
  · exact fun i hi => (stores_printUint junk n i hi).trans (by decide)
  · exact stores_printUintPadded junk n w
  · rw [chars_printUint,digitLoop_value hcan.digits (hcan.value.trans_lt n.toNat_lt)]
    exact hcan.value
  · rw [chars_printUintPadded,digitLoop_value isDigit_padded (hpadded.trans_lt n.toNat_lt)]
    exact hpadded

end VesperOS.Decimals
