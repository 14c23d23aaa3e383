import VesperOS.FileSystem.FileDescriptors

/-! # Reading a file in pieces

`fs_read` keeps nothing but the position of the handle from one call to the next,
so reading `a` and then `b` bytes is reading `a+b`. The drive may refuse any set
of sectors, the same ones in every call.
-/
namespace VesperOS.SequentialReads
open DiskProgram VesperFs MapRefinement FileDescriptors

/-- The bytes that a call delivers and the handle after it; the result of the call is the number of bytes. -/
def readOf (D : Drive) (d : Disk Sector) (f : File) (len : ℕ) : Bytes × File := (run D (fsRead f len) d).1

/-- How many bytes from `pos` on a call for `len` delivers: it stops at the end of the file and at the first sector that
the drive refuses. -/
structure Delivers (D : Drive) (start size pos len n : ℕ) : Prop where
  le : n ≤ min len (size-pos)
  readable : ∀ k < n, D.accepts (byteLba start (pos+k)) = true
  stops : n < min len (size-pos) → D.accepts (byteLba start (pos+n)) = false

variable {D : Drive} {start size pos : ℕ}

theorem Delivers.unique {len n n' : ℕ} (h : Delivers D start size pos len n) (h' : Delivers D start size pos len n') :
    n = n' := by
  have hlt : ∀ {i j}, Delivers D start size pos len i → Delivers D start size pos len j → ¬ i < j := by
    intro i j hi hj hij
    have hle := hj.le
    have hstop := hi.stops (by omega)
    rw [hj.readable i hij] at hstop
    cases hstop
  exact Nat.le_antisymm (Nat.le_of_not_lt (hlt h' h)) (Nat.le_of_not_lt (hlt h h'))

/-- After `n` bytes of the first call the second one goes on where a single call would. -/
theorem Delivers.append {a b n m : ℕ} (h : Delivers D start size pos a n) (h' : Delivers D start size (pos+n) b m) :
    Delivers D start size pos (a+b) (n+m) := by
  have hle := h.le
  have hle' := h'.le
  constructor
  · omega
  · intro k hk
    by_cases hkn : k < n
    · exact h.readable k hkn
    · have hsecond := h'.readable (k-n) (by omega)
      rw [show pos+n+(k-n) = pos+k by omega] at hsecond
      exact hsecond
  · intro hlt
    by_cases hfirst : n < min a (size-pos)
    · -- the sector that stopped the first call stops the second one at once
      have hstop := h.stops hfirst
      obtain rfl : m = 0 := by
        by_contra hm
        have hread := h'.readable 0 (by omega)
        rw [Nat.add_zero,hstop] at hread
        cases hread
      exact hstop
    · have hstop := h'.stops (by omega)
      rw [Nat.add_assoc] at hstop
      exact hstop

theorem readOf_valid (D : Drive) (d : Disk Sector) (start : ℕ) (hsize : size < 2^32) (hle : pos ≤ size) (len : ℕ) :
    ∃ n, Delivers D start size pos len n ∧ readOf D d ⟨start,size,pos,true⟩ len =
      (((fileBytes D d start size).drop pos).take n,⟨start,size,pos+n,true⟩) := by
  obtain ⟨n,hn,hrun,hread,hstop⟩ := fsRead_next D d start hsize pos len hle
  exact ⟨n,⟨hn,hread,hstop⟩,congrArg Prod.fst hrun⟩

/-- An invalid handle and one at or past the end of its file deliver nothing. -/
theorem readOf_nothing (D : Drive) (d : Disk Sector) {f : File} (h : f.valid = false ∨ f.size ≤ f.pos) (len : ℕ) :
    readOf D d f len = ([],f) := by
  rw [readOf,fsRead,if_pos h,run_pure]

theorem readOf_append (D : Drive) (d : Disk Sector) {f : File} (hsize : f.size < 2^32) (a b : ℕ) :
    (readOf D d f a).1++(readOf D d (readOf D d f a).2 b).1 = (readOf D d f (a+b)).1 ∧
      (readOf D d (readOf D d f a).2 b).2 = (readOf D d f (a+b)).2 := by
  by_cases hnone : f.valid = false ∨ f.size ≤ f.pos
  · simp only [readOf_nothing D d hnone]
    exact ⟨rfl,trivial⟩
  · obtain ⟨start,size,pos,valid⟩ := f
    rw [not_or,Bool.not_eq_false] at hnone
    obtain ⟨rfl,hlt⟩ := hnone
    dsimp only at hsize hlt
    obtain ⟨n,hn,he⟩ := readOf_valid D d start hsize (by omega : pos ≤ size) a
    have hnle := hn.le
    obtain ⟨m,hm,he'⟩ := readOf_valid D d start hsize (by omega : pos+n ≤ size) b
    obtain ⟨s,hs,he''⟩ := readOf_valid D d start hsize (by omega : pos ≤ size) (a+b)
    obtain rfl := hs.unique (hn.append hm)
    rw [he]
    dsimp only
    rw [he',he'',List.take_add,List.drop_drop]
    exact ⟨rfl,by rw [Nat.add_assoc]⟩

theorem readOf_advances (D : Drive) (d : Disk Sector) {f : File} (hsize : f.size < 2^32) (len : ℕ) :
    (readOf D d f len).2 = { f with pos := f.pos+(readOf D d f len).1.length } ∧
      (f.pos < f.size → (readOf D d f len).2.pos ≤ f.size) := by
  by_cases hnone : f.valid = false ∨ f.size ≤ f.pos
  · rw [readOf_nothing D d hnone]
    exact ⟨rfl,le_of_lt⟩
  · obtain ⟨start,size,pos,valid⟩ := f
    rw [not_or,Bool.not_eq_false] at hnone
    obtain ⟨rfl,hlt⟩ := hnone
    dsimp only at hsize hlt
    obtain ⟨n,hn,he⟩ := readOf_valid D d start hsize (by omega : pos ≤ size) len
    have hle := hn.le
    have hlen : (((fileBytes D d start size).drop pos).take n).length = n := by
      rw [List.length_take,List.length_drop,length_fileBytes]
      omega
    rw [he]
    dsimp only
    rw [hlen]
    exact ⟨rfl,fun _ => by omega⟩

/-- Two reads in sequence are one, on any handle and any drive, and every call moves the position over the bytes it
delivers and not past the end of the file. -/
theorem reads_compose (D : Drive) (d : Disk Sector) {f : File} (hsize : f.size < 2^32) (a b : ℕ) :
    run D (do
        let r ← fsRead f a
        let s ← fsRead r.2 b
        pure (r.1++s.1,s.2)) d = run D (fsRead f (a+b)) d ∧
    (readOf D d f a).1.length + (readOf D d (readOf D d f a).2 b).1.length = (readOf D d f (a+b)).1.length ∧
    ∀ len, (readOf D d f len).2 = { f with pos := f.pos+(readOf D d f len).1.length } ∧
      (f.pos < f.size → (readOf D d f len).2.pos ≤ f.size) := by
  obtain ⟨hbytes,hfile⟩ := readOf_append D d hsize a b
  refine ⟨?_,?_,readOf_advances D d hsize⟩
  · rw [run_bind,run_fsRead_disk,run_bind,run_fsRead_disk,run_pure]
    exact Prod.ext (Prod.ext hbytes hfile) (run_fsRead_disk D f (a+b) d).symm
  · rw [← List.length_append,hbytes]

/-- A file of 600 bytes on a drive whose sector 139 cannot be read: after 500 bytes a request for 100 more gets the 12
that are left of the first sector. -/
theorem reads_compose_refused :
    (readOf ⟨fun lba => lba ≠ 139,ataSector⟩ (fun _ _ => 7) ⟨138,600,0,true⟩ 500).1.length +
      (readOf ⟨fun lba => lba ≠ 139,ataSector⟩ (fun _ _ => 7)
        (readOf ⟨fun lba => lba ≠ 139,ataSector⟩ (fun _ _ => 7) ⟨138,600,0,true⟩ 500).2 100).1.length = 512 := by
  have hcompose := reads_compose ⟨fun lba => lba ≠ 139,ataSector⟩ (fun _ _ => 7)
    (by decide : File.size ⟨138,600,0,true⟩ < 2^32) 500 100
  rw [hcompose.2.1]
  decide +kernel

end VesperOS.SequentialReads
