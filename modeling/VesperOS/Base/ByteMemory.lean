import Mathlib.Tactic

/-! # Byte-addressed memory

A memory is a total function from addresses to bytes. Words are read and stored
little-endian, and the block operations of the C string library are the literal
byte loops; each has one specification lemma that later proofs use in its place.
-/
namespace VesperOS.ByteMemory

abbrev Mem := ℕ → UInt8

/-- Store one byte. -/
def write8 (m : Mem) (a : ℕ) (b : UInt8) : Mem := Function.update m a b

/-- The little-endian 16-bit word at an address. -/
def read16 (m : Mem) (a : ℕ) : ℕ := (m a).toNat + 256*(m (a+1)).toNat

/-- The little-endian 32-bit word at an address. -/
def read32 (m : Mem) (a : ℕ) : ℕ :=
  (m a).toNat + 256*(m (a+1)).toNat + 65536*(m (a+2)).toNat + 16777216*(m (a+3)).toNat

/-- Store a 32-bit word, low byte first; bits above the word are dropped. -/
def write32 (m : Mem) (a v : ℕ) : Mem :=
  write8 (write8 (write8 (write8 m a (UInt8.ofNat v)) (a+1) (UInt8.ofNat (v/256)))
    (a+2) (UInt8.ofNat (v/65536))) (a+3) (UInt8.ofNat (v/16777216))

/-- `while (n--) *p++ = c`. -/
def memset (m : Mem) (dst : ℕ) (c : UInt8) : ℕ → Mem
  | 0 => m
  | n + 1 => memset (write8 m dst c) (dst+1) c n

/-- `while (n--) *d++ = *s++` from a source that the stores do not change. -/
def memcpy (m : Mem) (dst : ℕ) (src : ℕ → UInt8) : ℕ → Mem
  | 0 => m
  | n + 1 => memcpy (write8 m dst (src 0)) (dst+1) (fun k => src (k+1)) n

@[simp] theorem write8_same (m : Mem) (a : ℕ) (b : UInt8) : write8 m a b a = b := by
  simp [write8]

theorem write8_of_ne (m : Mem) {a x : ℕ} (b : UInt8) (h : x ≠ a) : write8 m a b x = m x := by
  simp [write8,h]

theorem write32_apply (m : Mem) (a v x : ℕ) :
    write32 m a v x = if x = a then UInt8.ofNat v else if x = a+1 then UInt8.ofNat (v/256)
      else if x = a+2 then UInt8.ofNat (v/65536)
      else if x = a+3 then UInt8.ofNat (v/16777216) else m x := by
  simp only [write32,write8,Function.update_apply]
  split_ifs <;> first | rfl | omega

/-- A word store changes only its four bytes. -/
theorem write32_of_outside (m : Mem) {a v x : ℕ} (h : x < a ∨ a + 4 ≤ x) :
    write32 m a v x = m x := by
  rw [write32_apply,if_neg (by omega),if_neg (by omega),if_neg (by omega),if_neg (by omega)]

theorem memset_apply (m : Mem) (dst : ℕ) (c : UInt8) (n x : ℕ) :
    memset m dst c n x = if dst ≤ x ∧ x < dst + n then c else m x := by
  induction n generalizing m dst with
  | zero => simp [memset]
  | succ n ih =>
    rw [memset,ih]
    by_cases hx : x = dst
    · subst hx
      simp
    · rw [write8_of_ne m c hx]
      congr 1
      apply propext
      omega

theorem memset_of_outside (m : Mem) {dst n x : ℕ} (c : UInt8) (h : x < dst ∨ dst + n ≤ x) :
    memset m dst c n x = m x := by
  rw [memset_apply,if_neg (by omega)]

theorem memcpy_apply (m : Mem) (dst : ℕ) (src : ℕ → UInt8) (n x : ℕ) :
    memcpy m dst src n x = if dst ≤ x ∧ x < dst + n then src (x-dst) else m x := by
  induction n generalizing m dst src with
  | zero => simp [memcpy]
  | succ n ih =>
    rw [memcpy,ih]
    by_cases hx : x = dst
    · subst hx
      simp
    · rw [write8_of_ne m _ hx]
      by_cases hi : dst + 1 ≤ x ∧ x < dst + 1 + n
      · rw [if_pos hi,if_pos (by omega)]
        congr 1
        omega
      · rw [if_neg hi,if_neg (by omega)]

theorem memcpy_of_outside (m : Mem) {dst n x : ℕ} (src : ℕ → UInt8) (h : x < dst ∨ dst + n ≤ x) :
    memcpy m dst src n x = m x := by
  rw [memcpy_apply,if_neg (by omega)]

theorem read32_lt (m : Mem) (a : ℕ) : read32 m a < 2^32 := by
  have h0 := (m a).toNat_lt
  have h1 := (m (a+1)).toNat_lt
  have h2 := (m (a+2)).toNat_lt
  have h3 := (m (a+3)).toNat_lt
  simp only [read32]
  omega

/-- A word depends on its four bytes only. -/
theorem read32_congr {m m' : Mem} {a : ℕ} (h : ∀ x, a ≤ x → x < a + 4 → m x = m' x) :
    read32 m a = read32 m' a := by
  simp only [read32]
  rw [h a (by omega) (by omega),h (a+1) (by omega) (by omega),h (a+2) (by omega) (by omega),
    h (a+3) (by omega) (by omega)]

@[simp] theorem read32_write32_same (m : Mem) (a v : ℕ) :
    read32 (write32 m a v) a = v % 2^32 := by
  simp only [read32,write32_apply]
  simp
  omega

theorem read32_write32_of_disjoint (m : Mem) {a b v : ℕ} (h : a + 4 ≤ b ∨ b + 4 ≤ a) :
    read32 (write32 m a v) b = read32 m b :=
  read32_congr fun x h1 h2 => write32_of_outside m (by omega)

/-- A word of a region cleared by `memset` is zero. -/
theorem read32_memset_zero (m : Mem) {dst n a : ℕ} (h1 : dst ≤ a) (h2 : a + 4 ≤ dst + n) :
    read32 (memset m dst 0 n) a = 0 := by
  simp only [read32,memset_apply]
  rw [if_pos (by omega),if_pos (by omega),if_pos (by omega),if_pos (by omega)]
  rfl

/-! ## Loops over 32-bit pointers -/

/-- `memset` with a pointer that wraps. -/
def setBytes (m : Mem) (dst : ℕ) (c : UInt8) : ℕ → Mem
  | 0 => m
  | n + 1 => setBytes (write8 m (dst % 2^32) c) (dst+1) c n

/-- `memcpy` inside one memory: each byte is read when the ones before it have been stored. -/
def copyBytes (m : Mem) (dst src : ℕ) : ℕ → Mem
  | 0 => m
  | n + 1 => copyBytes (write8 m (dst % 2^32) (m (src % 2^32))) (dst+1) (src+1) n

theorem setBytes_of_outside (m : Mem) {dst n x : ℕ} (c : UInt8) (h : ∀ k < n, x ≠ (dst+k) % 2^32) :
    setBytes m dst c n x = m x := by
  induction n generalizing m dst with
  | zero => rfl
  | succ n ih =>
    have hfirst : x ≠ dst % 2^32 := h 0 (Nat.succ_pos n)
    rw [setBytes,ih _ fun k hk => ?_,write8_of_ne _ _ hfirst]
    rw [Nat.add_assoc,Nat.add_comm 1 k]
    exact h (k+1) (by omega)

theorem copyBytes_of_outside (m : Mem) {dst src n x : ℕ} (h : ∀ k < n, x ≠ (dst+k) % 2^32) :
    copyBytes m dst src n x = m x := by
  induction n generalizing m dst src with
  | zero => rfl
  | succ n ih =>
    have hfirst : x ≠ dst % 2^32 := h 0 (Nat.succ_pos n)
    rw [copyBytes,ih _ fun k hk => ?_,write8_of_ne _ _ hfirst]
    rw [Nat.add_assoc,Nat.add_comm 1 k]
    exact h (k+1) (by omega)

/-- Without a wrap it is the loop of `memset`. -/
theorem setBytes_eq (m : Mem) {dst n : ℕ} (c : UInt8) (h : dst + n ≤ 2^32) : setBytes m dst c n = memset m dst c n := by
  induction n generalizing m dst with
  | zero => rfl
  | succ n ih => rw [setBytes,memset,Nat.mod_eq_of_lt (by omega),ih _ (by omega)]

/-- With source and destination apart it is the loop of `memcpy`. -/
theorem copyBytes_eq {m m' : Mem} {dst src n : ℕ} (hdst : dst + n ≤ 2^32) (hsrc : src + n ≤ 2^32)
    (hapart : src + n ≤ dst ∨ dst + n ≤ src) (hsame : ∀ k < n, m' (src+k) = m (src+k)) :
    copyBytes m' dst src n = memcpy m' dst (fun k => m (src+k)) n := by
  induction n generalizing m' dst src with
  | zero => rfl
  | succ n ih =>
    have hfirst : m' src = m src := hsame 0 (Nat.succ_pos n)
    rw [copyBytes,memcpy,Nat.mod_eq_of_lt (by omega),Nat.mod_eq_of_lt (by omega),hfirst,
      ih (by omega) (by omega) (by omega) fun k hk => ?_]
    · simp only [Nat.add_zero,Nat.add_assoc,Nat.add_comm 1]
    · rw [write8_of_ne _ _ (by omega),Nat.add_assoc,Nat.add_comm 1 k]
      exact hsame (k+1) (by omega)

end VesperOS.ByteMemory
