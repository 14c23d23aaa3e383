import VesperOS.Loader.ElfImage
import VesperOS.Memory.Translation

/-! # What the user loader puts into a page

The part of a page that comes from the file is computed in 32-bit arithmetic.
When the end of the file part does not wrap, it is the intersection of the page
with the file part, except for the last page of the address space, which is
never copied. When it wraps, nothing is copied, unless the sum reaches the
segment's own first page again: then the whole length is copied into that page.
-/
namespace VesperOS.PageFill
open ByteMemory FrameAllocator Paging AddressSpaces Translation ElfImage

/-- The fields of a program header are 32-bit words. -/
structure Bounded (ph : Phdr) : Prop where
  offset : ph.offset < 2^32
  vaddr : ph.vaddr < 2^32
  filesz : ph.filesz < 2^32
  memsz : ph.memsz < 2^32

theorem bounded_phdr (img : Image) (i : ℕ) : Bounded (img.phdr i) :=
  ⟨read32_lt _ _,read32_lt _ _,read32_lt _ _,read32_lt _ _⟩

/-- The end of the file part wraps around into the first page of the segment,
which is not the last page of the address space. -/
def Overlong (ph : Phdr) : Prop := 2^32 < ph.filesz + ph.vaddr % 4096 ∧ ph.vaddr + 4096 < 2^32

instance (ph : Phdr) : Decidable (Overlong ph) := inferInstanceAs (Decidable (_ ∧ _))

/-- The byte at virtual address `a` of page `v` comes from the file. -/
def FromFile (ph : Phdr) (v a : ℕ) : Prop :=
  ph.vaddr + ph.filesz < 2^32 ∧ v + 4096 < 2^32 ∧ ph.vaddr ≤ a ∧ a < ph.vaddr + ph.filesz

instance (ph : Phdr) (v a : ℕ) : Decidable (FromFile ph v a) := inferInstanceAs (Decidable (_ ∧ _))

/-- What the loader leaves at offset `x` of page `v`. -/
def pageByte (img : Image) (ph : Phdr) (v x : ℕ) : UInt8 :=
  if FromFile ph v (v+x) then img.view (ph.offset+(v+x-ph.vaddr)) else 0

/-- The reads that filling page `v` logs. -/
def fillReads (ph : Phdr) (v : ℕ) : List Range :=
  match ph.copyRange v with
  | none => []
  | some (_,srcOff,copyLen) => [(srcOff,copyLen)]

section Copy
variable {ph : Phdr} {v : ℕ} (hb : Bounded ph) (hv : v < 2^32) (hal : v % 4096 = 0)
include hb hv hal

/-- Without a wrap of the file end the copied part is an intersection. -/
theorem copyRange_of_lt (h : ph.vaddr + ph.filesz < 2^32) :
    ph.copyRange v =
      if v + 4096 < 2^32 ∧ v < ph.vaddr + ph.filesz ∧ ph.vaddr < v + 4096 then
        some (max v ph.vaddr - v,(ph.offset+(max v ph.vaddr - ph.vaddr)) % 2^32,
          min (v+4096) (ph.vaddr+ph.filesz) - max v ph.vaddr)
      else none := by
  have hvb := hb.vaddr
  have he : (ph.vaddr+ph.filesz) % 2^32 = ph.vaddr+ph.filesz := Nat.mod_eq_of_lt h
  by_cases htop : v + 4096 < 2^32
  · have hp : (v+4096) % 2^32 = v+4096 := Nat.mod_eq_of_lt htop
    simp only [Phdr.copyRange,he,hp]
    by_cases hskip : ph.vaddr + ph.filesz ≤ v ∨ v + 4096 ≤ ph.vaddr
    · rw [if_pos hskip,if_neg (by omega)]
    · have hin : v + 4096 < 2^32 ∧ v < ph.vaddr + ph.filesz ∧ ph.vaddr < v + 4096 := by omega
      have hstart : (if ph.vaddr < v then v else ph.vaddr) = max v ph.vaddr := by split <;> omega
      have hend : (if v+4096 < ph.vaddr+ph.filesz then v+4096 else ph.vaddr+ph.filesz) =
          min (v+4096) (ph.vaddr+ph.filesz) := by split <;> omega
      have hsrc : (max v ph.vaddr+(2^32-ph.vaddr)) % 2^32 = max v ph.vaddr - ph.vaddr := by omega
      rw [if_neg hskip,if_pos hin,hstart,hend,hsrc]
      simp only [Option.some.injEq,Prod.mk.injEq]
      exact ⟨by omega,trivial,by omega⟩
  · have hp : (v+4096) % 2^32 = 0 := by omega
    simp only [Phdr.copyRange,hp]
    rw [if_pos (by omega),if_neg (by omega)]

/-- A wrapped file end hides the file part from every page. -/
theorem copyRange_of_wrap (h : 2^32 ≤ ph.vaddr + ph.filesz) (hl : ¬ Overlong ph) : ph.copyRange v = none := by
  have hvb := hb.vaddr
  have hfb := hb.filesz
  have he : (ph.vaddr+ph.filesz) % 2^32 = ph.vaddr+ph.filesz-2^32 := by omega
  simp only [Overlong] at hl
  simp only [Phdr.copyRange,he]
  rw [if_pos]
  by_cases htop : v + 4096 < 2^32
  · rw [Nat.mod_eq_of_lt htop]
    omega
  · right
    omega

end Copy

/-- The copy of an overlong file part starts in the segment's first page. -/
theorem copyRange_overlong {ph : Phdr} (hb : Bounded ph) (hl : Overlong ph) :
    ph.copyRange ph.pageStart = some (ph.vaddr % 4096,ph.offset,ph.filesz) := by
  have hvb := hb.vaddr
  have hfb := hb.filesz
  have hob := hb.offset
  simp only [Overlong] at hl
  have hs : ph.pageStart = ph.vaddr/4096*4096 := rfl
  have he : (ph.vaddr+ph.filesz) % 2^32 = ph.vaddr+ph.filesz-2^32 := by omega
  have htop : ph.pageStart + 4096 < 2^32 := by omega
  have h1 : ¬ (ph.vaddr+ph.filesz-2^32 ≤ ph.pageStart ∨ ph.pageStart+4096 ≤ ph.vaddr) := by omega
  have h2 : ¬ ph.vaddr < ph.pageStart := by omega
  have h3 : ¬ ph.pageStart+4096 < ph.vaddr+ph.filesz-2^32 := by omega
  simp only [Phdr.copyRange,he,Nat.mod_eq_of_lt htop,if_neg h1,if_neg h2,if_neg h3,
    Option.some.injEq,Prod.mk.injEq]
  exact ⟨by omega,by omega,by omega⟩

/-! ## One page -/

/-- Memory `m` has become `m'` by filling frame `g` with page `v`. -/
structure Filled (img : Image) (ph : Phdr) (v g : ℕ) (m m' : Mem) : Prop where
  others : ∀ k, k ≠ g → SameFrame m m' k
  bytes : ∀ x < 4096, m' (4096*g+x) = pageByte img ph v x

/-- Clearing a frame fills it with a page that nothing of the file falls into. -/
theorem filled_memset {img : Image} {ph : Phdr} {v g : ℕ} (m : Mem)
    (h : ∀ x < 4096, ¬ FromFile ph v (v+x)) : Filled img ph v g m (memset m (4096*g) 0 4096) := by
  refine ⟨fun k hk => sameFrame_memset m 0 hk,fun x hx => ?_⟩
  rw [memset_apply,if_pos (by omega),pageByte,if_neg (h x hx)]

theorem filled_memcpy {img : Image} {ph : Phdr} {v g dst src n : ℕ} (m : Mem) (hfit : dst + n ≤ 4096)
    (hin : ∀ x < 4096, FromFile ph v (v+x) ↔ dst ≤ x ∧ x < dst + n)
    (hsrc : ∀ x, dst ≤ x → x < dst + n → img.view (src+(x-dst)) = img.view (ph.offset+(v+x-ph.vaddr))) :
    Filled img ph v g m
      (memcpy (memset m (4096*g) 0 4096) (4096*g+dst) (fun k => img.view (src+k)) n) := by
  refine ⟨fun k hk x hx => ?_,fun x hx => ?_⟩
  · rw [memcpy_of_outside _ _ (by omega),memset_of_outside _ _ (by omega)]
  · rw [memcpy_apply,pageByte]
    by_cases hc : dst ≤ x ∧ x < dst + n
    · rw [if_pos (by omega),if_pos ((hin x hx).mpr hc),← hsrc x hc.1 hc.2]
      congr 2
      omega
    · rw [if_neg (by omega),if_neg fun hf => hc ((hin x hx).mp hf),memset_apply,if_pos (by omega)]

theorem view_mod (img : Image) (a b : ℕ) : img.view (a % 2^32 + b) = img.view (a+b) := by
  simp only [Image.view,Nat.mod_add_mod]

/-- One page of a segment that is not overlong: its frame is filled and nothing
else changes. -/
theorem fillPage_next (img : Image) {ph : Phdr} {d v g : ℕ} {s : UserLoad} (hb : Bounded ph)
    (hv : v < 2^32) (hal : v % 4096 = 0) (hl : ¬ Overlong ph) (hm : Maps s.mach.mem d v g)
    (hg : lowFrames ≤ g) :
    ∃ m', fillPage img ph (4096*d) v s = .next ⟨⟨m',s.mach.pmm⟩,fillReads ph v ++ s.reads⟩ ∧
      Filled img ph v g s.mach.mem m' := by
  have hphys : ¬ 4096*g = 0 := by
    simp only [lowFrames] at hg
    omega
  have hvb := hb.vaddr
  by_cases hw : ph.vaddr + ph.filesz < 2^32
  · by_cases hc : v + 4096 < 2^32 ∧ v < ph.vaddr + ph.filesz ∧ ph.vaddr < v + 4096
    · have hr := copyRange_of_lt hb hv hal hw
      rw [if_pos hc] at hr
      have hfit : max v ph.vaddr - v + (min (v+4096) (ph.vaddr+ph.filesz) - max v ph.vaddr) ≤ 4096 := by
        omega
      have hin : ∀ x < 4096, FromFile ph v (v+x) ↔ max v ph.vaddr - v ≤ x ∧
          x < max v ph.vaddr - v + (min (v+4096) (ph.vaddr+ph.filesz) - max v ph.vaddr) := by
        intro x hx
        simp only [FromFile]
        omega
      have hsrc : ∀ x, max v ph.vaddr - v ≤ x →
          x < max v ph.vaddr - v + (min (v+4096) (ph.vaddr+ph.filesz) - max v ph.vaddr) →
          img.view ((ph.offset+(max v ph.vaddr - ph.vaddr)) % 2^32 + (x-(max v ph.vaddr - v))) =
            img.view (ph.offset+(v+x-ph.vaddr)) := by
        intro x h1 h2
        rw [view_mod]
        congr 1
        omega
      refine ⟨_,?_,filled_memcpy s.mach.mem hfit hin hsrc⟩
      simp only [fillPage,hm.physOfVirt,if_neg hphys,hr,if_neg (Nat.not_lt.mpr hfit),fillReads,
        List.cons_append,List.nil_append]
    · have hr := copyRange_of_lt hb hv hal hw
      rw [if_neg hc] at hr
      refine ⟨_,?_,filled_memset s.mach.mem ?_⟩
      · simp only [fillPage,hm.physOfVirt,if_neg hphys,hr,fillReads,List.nil_append]
      · intro x hx
        simp only [FromFile]
        omega
  · have hr := copyRange_of_wrap hb hv hal (by omega) hl
    refine ⟨_,?_,filled_memset s.mach.mem ?_⟩
    · simp only [fillPage,hm.physOfVirt,if_neg hphys,hr,fillReads,List.nil_append]
    · intro x hx
      simp only [FromFile]
      omega

/-- The first page of an overlong segment: the copy leaves its frame. -/
theorem fillPage_overlong (img : Image) {ph : Phdr} {d g : ℕ} {s : UserLoad} (hb : Bounded ph)
    (hl : Overlong ph) (hm : Maps s.mach.mem d ph.pageStart g) (hg : lowFrames ≤ g) :
    fillPage img ph (4096*d) ph.pageStart s =
      .overrun ⟨⟨memset s.mach.mem (4096*g) 0 4096,s.mach.pmm⟩,(ph.offset,ph.filesz) :: s.reads⟩ := by
  have hphys : ¬ 4096*g = 0 := by
    simp only [lowFrames] at hg
    omega
  have hvb := hb.vaddr
  have hbig : 4096 < ph.vaddr % 4096 + ph.filesz := by
    simp only [Overlong] at hl
    omega
  simp only [fillPage,hm.physOfVirt,if_neg hphys,copyRange_overlong hb hl,if_pos hbig]

end VesperOS.PageFill
