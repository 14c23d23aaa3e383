import VesperOS.FileSystem.PortTransfers
import VesperOS.FileSystem.MapRefinement

/-! # VesperFS over the ports

A program of driver calls runs on the ports of a drive. Each operation of `fs.c` is such a program, and what it does
to the disk and returns is what its sector program does, however its transfers are grouped into calls. So the
histories of calls over the ports refine the finite map as well.
-/
namespace VesperOS.DriverCalls
open ByteMemory PortIO DiskProgram VesperFs DiskVolume AtaPorts PortTransfers MapRefinement
variable {α β : Type}

/-! ## Programs of calls -/

/-- A call is given its address, its sector count and, for a write, its buffer. -/
inductive Calls (α : Type) where
  | ret (a : α)
  | read (lba : UInt32) (count : UInt8) (next : Option (List Sector) → Calls α)
  | write (lba : UInt32) (count : UInt8) (buf : ℕ → UInt16) (next : Bool → Calls α)

namespace Calls

def bind (f : α → Calls β) : Calls α → Calls β
  | ret a => f a
  | read lba count next => read lba count (fun r => (next r).bind f)
  | write lba count buf next => write lba count buf (fun ok => (next ok).bind f)

def program : Calls α → FsProg α
  | ret a => pure a
  | read lba count next => ataReadSectors lba.toNat count.toNat >>= fun r => (next r).program
  | write lba count buf next =>
    ataWriteSectors lba.toNat (bufferSectors buf 0 count.toNat) >>= fun ok => (next ok).program

def onPorts (E : Timing) : Calls α → AtaDrive → α × AtaDrive
  | ret a, x => (a,x)
  | read lba count next, x =>
    let r := AtaPorts.ataReadSectors (AtaDrive.ports E) lba count x
    (next (delivered count.toNat r.1)).onPorts E r.2
  | write lba count buf next, x =>
    let r := AtaPorts.ataWriteSectors (AtaDrive.ports E) lba count buf x
    (next r.1).onPorts E r.2

end Calls

theorem prog_bind_assoc {γ : Type} (p : FsProg α) (f : α → FsProg β) (g : β → FsProg γ) :
    (p >>= f) >>= g = p >>= fun a => f a >>= g := by
  change (p.bind f).bind g = p.bind fun a => (f a).bind g
  induction p with
  | ret a => rfl
  | read lba next ih => exact congrArg (Prog.read lba) (funext ih)
  | write lba s next ih => exact congrArg (Prog.write lba s) (funext ih)

theorem program_bind (c : Calls α) (f : α → Calls β) : (c.bind f).program = c.program >>= fun a => (f a).program := by
  induction c with
  | ret a => rfl
  | read lba count next ih =>
    rw [Calls.program,prog_bind_assoc]
    exact congrArg _ (funext ih)
  | write lba count buf next ih =>
    rw [Calls.program,prog_bind_assoc]
    exact congrArg _ (funext ih)

/-- Every sector that is asked for has a 28-bit address. -/
def InReach (p : FsProg α) (N : ℕ) (d : Disk Sector) : Prop := Requests (drive N) (fun lba => lba < 2^28) p d

theorem first_read {N lba count : ℕ} {f : Option (List Sector) → FsProg α} {d : Disk Sector} (hc : count ≠ 0)
    (h : InReach (ataReadSectors lba count >>= f) N d) : lba < 2^28 := by
  obtain ⟨k,rfl⟩ := Nat.exists_eq_succ_of_ne_zero hc
  exact h.1

theorem first_write {N lba : ℕ} {ss : List Sector} {f : Bool → FsProg α} {d : Disk Sector} (hs : ss ≠ [])
    (h : InReach (ataWriteSectors lba ss >>= f) N d) : lba < 2^28 := by
  cases ss with
  | nil => exact absurd rfl hs
  | cons s ss => exact h.1

/-- The calls do on the ports what the sector program does on the disk. -/
theorem onPorts_spec {E : Timing} (hE : E.Prompt) (c : Calls α) {x : AtaDrive} (hx : Ready x)
    (hin : InReach c.program x.size x.contents) :
    (c.onPorts E x).1 = (run (drive x.size) c.program x.contents).1 ∧
      Ended x (c.onPorts E x).2 (run (drive x.size) c.program x.contents).2 := by
  induction c generalizing x with
  | ret a => exact ⟨rfl,hx,rfl,rfl⟩
  | read lba count next ih =>
    have hcall : delivered count.toNat (AtaPorts.ataReadSectors (AtaDrive.ports E) lba count x).1 =
          (run (drive x.size) (ataReadSectors lba.toNat count.toNat) x.contents).1 ∧
        Ended x (AtaPorts.ataReadSectors (AtaDrive.ports E) lba count x).2
          (run (drive x.size) (ataReadSectors lba.toNat count.toNat) x.contents).2 := by
      by_cases hc : count = 0
      · subst hc
        exact ⟨rfl,hx,rfl,rfl⟩
      · refine ataReadSectors_spec hE hx (first_read ?_ hin) count
        exact fun h0 => hc (UInt8.toNat_inj.mp h0)
    obtain ⟨hres,hend⟩ := hcall
    have hrest := ((requests_bind _ _ _ _ _).mp hin).2
    rw [Calls.program,run_bind,Calls.onPorts]
    rw [← hres,← hend.contents,← hend.size] at hrest ⊢
    obtain ⟨hr,he⟩ := ih _ hend.ready hrest
    exact ⟨hr,he.ready,he.size.trans hend.size,he.contents⟩
  | write lba count buf next ih =>
    have hcall : (AtaPorts.ataWriteSectors (AtaDrive.ports E) lba count buf x).1 =
          (run (drive x.size) (ataWriteSectors lba.toNat (bufferSectors buf 0 count.toNat)) x.contents).1 ∧
        Ended x (AtaPorts.ataWriteSectors (AtaDrive.ports E) lba count buf x).2
          (run (drive x.size) (ataWriteSectors lba.toNat (bufferSectors buf 0 count.toNat)) x.contents).2 := by
      by_cases hc : count = 0
      · subst hc
        exact ⟨rfl,hx,rfl,rfl⟩
      · refine ataWriteSectors_spec hE hx (first_write ?_ hin) count buf
        intro hnil
        have hlen : (bufferSectors buf 0 count.toNat).length = count.toNat := by simp [bufferSectors]
        rw [hnil] at hlen
        exact hc (UInt8.toNat_inj.mp hlen.symm)
    obtain ⟨hres,hend⟩ := hcall
    have hrest := ((requests_bind _ _ _ _ _).mp hin).2
    rw [Calls.program,run_bind,Calls.onPorts]
    rw [← hres,← hend.contents,← hend.size] at hrest ⊢
    obtain ⟨hr,he⟩ := ih _ hend.ready hrest
    exact ⟨hr,he.ready,he.size.trans hend.size,he.contents⟩

/-! ## The operations of `fs.c` are programs of calls -/

def Driven (p : FsProg α) : Prop := ∃ c : Calls α, c.program = p

theorem driven_pure (a : α) : Driven (pure a : FsProg α) := ⟨.ret a,rfl⟩

theorem driven_bind {p : FsProg α} {f : α → FsProg β} (hp : Driven p) (hf : ∀ a, Driven (f a)) : Driven (p >>= f) := by
  obtain ⟨c,rfl⟩ := hp
  choose g hg using hf
  exact ⟨c.bind g,(program_bind c g).trans (congrArg _ (funext hg))⟩

theorem prog_bind_pure (p : FsProg α) : p >>= pure = p := by
  change p.bind .ret = p
  induction p with
  | ret a => rfl
  | read lba next ih => exact congrArg (Prog.read lba) (funext ih)
  | write lba s next ih => exact congrArg (Prog.write lba s) (funext ih)

theorem driven_readSectors {lba count : ℕ} (hl : lba < 2^32) (hc : count < 2^8) : Driven (ataReadSectors lba count) := by
  refine ⟨.read (UInt32.ofNat lba) (UInt8.ofNat count) .ret,?_⟩
  rw [Calls.program,UInt32.toNat_ofNat_of_lt' hl,UInt8.toNat_ofNat_of_lt' hc]
  exact prog_bind_pure _

/-- The words of a buffer that holds these sectors. -/
def bufferOf (ss : List Sector) (i : ℕ) : UInt16 := wordsOf (ss.getD (i/256) (fun _ => 0)) (i%256)

theorem bufferSectors_bufferOf (ss : List Sector) : bufferSectors (bufferOf ss) 0 ss.length = ss := by
  apply List.ext_getElem
  · simp [bufferSectors]
  · intro i hi hs
    have hword : ∀ j < 256, bufferOf ss (256*i+j) = wordsOf ss[i] j := by
      intro j hj
      have hdiv : (256*i+j)/256 = i := by omega
      have hmod : (256*i+j)%256 = j := by omega
      rw [bufferOf,hdiv,hmod,List.getD_eq_getElem?_getD,List.getElem?_eq_getElem hs,Option.getD_some]
    simp only [bufferSectors,List.getElem_map,List.getElem_range',Nat.zero_add,Nat.one_mul]
    rw [sectorOf_congr hword]
    exact sectorOf_wordsOf ss[i]

theorem driven_writeSectors {lba : ℕ} {ss : List Sector} (hl : lba < 2^32) (hs : ss.length < 2^8) :
    Driven (ataWriteSectors lba ss) := by
  refine ⟨.write (UInt32.ofNat lba) (UInt8.ofNat ss.length) (bufferOf ss) .ret,?_⟩
  rw [Calls.program,UInt32.toNat_ofNat_of_lt' hl,UInt8.toNat_ofNat_of_lt' hs,bufferSectors_bufferOf]
  exact prog_bind_pure _

/-- A call for one sector. -/
theorem driven_readAt {lba : ℕ} (hl : lba < 2^32) : Driven (readAt (σ := Sector) lba) := by
  have hone : readAt lba = ataReadSectors lba 1 >>= fun r : Option (List Sector) => pure (r.bind List.head?) := by
    refine congrArg (Prog.read lba) (funext fun r => ?_)
    cases r <;> rfl
  rw [hone]
  exact driven_bind (driven_readSectors hl (by decide)) (fun _ => driven_pure _)

theorem driven_writeAt {lba : ℕ} (s : Sector) (hl : lba < 2^32) : Driven (writeAt lba s) := by
  have hone : writeAt lba s = ataWriteSectors lba [s] := by
    refine congrArg (Prog.write lba s) (funext fun ok => ?_)
    cases ok <;> rfl
  rw [hone]
  exact driven_writeSectors hl (show 1 < 2^8 by decide)

section Operations

theorem driven_readSuper : Driven readSuper := by
  refine driven_bind (driven_readSectors (by decide) (by decide)) fun r => ?_
  split <;> exact driven_pure _

theorem driven_writeSuper (sb : Sector) : Driven (writeSuper sb) :=
  driven_writeSectors (by decide) (show 1 < 2^8 by decide)

theorem driven_readDir : Driven readDir := by
  refine driven_bind (driven_readSectors (by decide) (by decide)) fun r => ?_
  split <;> exact driven_pure _

theorem driven_writeDir (dir : Mem) : Driven (writeDir dir) :=
  driven_writeSectors (by decide) (by simp [dirSectors,fsDirSectors])

theorem driven_fsFormat : Driven fsFormat := by
  refine driven_bind (driven_writeSuper _) fun ok => ?_
  split
  · refine driven_bind (driven_writeDir _) fun ok => ?_
    split <;> exact driven_pure _
  · exact driven_pure _

theorem driven_fsOpen (name : Bytes) : Driven (fsOpen name) := by
  refine driven_bind driven_readDir fun r => ?_
  split
  · exact driven_pure _
  · split <;> exact driven_pure _

theorem driven_fsReadLoop (fuel remaining : ℕ) (f : File) : Driven (fsReadLoop fuel remaining f) := by
  induction fuel generalizing remaining f with
  | zero => exact driven_pure _
  | succ fuel ih =>
    rw [fsReadLoop]
    split
    · exact driven_pure _
    · refine driven_bind (driven_readAt (Nat.mod_lt _ (by decide))) fun r => ?_
      split
      · exact driven_pure _
      · exact driven_bind (ih _ _) fun r => driven_pure _

theorem driven_fsRead (f : File) (len : ℕ) : Driven (fsRead f len) := by
  unfold fsRead
  split
  · exact driven_pure _
  · exact driven_fsReadLoop _ _ f

theorem driven_writeData (base n s : ℕ) (rest : Bytes) : Driven (writeData base n s rest) := by
  induction n generalizing s rest with
  | zero => exact driven_pure _
  | succ n ih =>
    refine driven_bind (driven_writeAt _ (Nat.mod_lt _ (by decide))) fun ok => ?_
    split
    · exact ih _ _
    · exact driven_pure _

theorem driven_fsWriteNew (name data : Bytes) : Driven (fsWriteNew name data) := by
  unfold fsWriteNew
  split
  · exact driven_pure _
  · refine driven_bind driven_readSuper fun r => ?_
    split
    · exact driven_pure _
    · refine driven_bind driven_readDir fun r => ?_
      split
      · exact driven_pure _
      · split
        · exact driven_pure _
        · split
          · exact driven_pure _
          · refine driven_bind (driven_writeData _ _ _ _) fun ok => ?_
            split
            · refine driven_bind (driven_writeDir _) fun ok => ?_
              split
              · refine driven_bind (driven_writeSuper _) fun ok => ?_
                split <;> exact driven_pure _
              · exact driven_pure _
            · exact driven_pure _

theorem driven_fsDelete (name : Bytes) : Driven (fsDelete name) := by
  unfold fsDelete
  split
  · exact driven_pure _
  · refine driven_bind driven_readDir fun r => ?_
    split
    · exact driven_pure _
    · split
      · exact driven_pure _
      · refine driven_bind (driven_writeDir _) fun ok => ?_
        split
        · refine driven_bind driven_readSuper fun r => ?_
          split
          · exact driven_pure _
          · split
            · exact driven_bind (driven_writeSuper _) fun _ => driven_pure _
            · exact driven_pure _
        · exact driven_pure _

end Operations

/-! ## Their addresses -/

section Reach
variable {N : ℕ} {d : Disk Sector}

theorem reach_bind {p : FsProg α} {f : α → FsProg β} (hp : InReach p N d)
    (hf : InReach (f (run (drive N) p d).1) N (run (drive N) p d).2) : InReach (p >>= f) N d :=
  (requests_bind _ _ p f d).mpr ⟨hp,hf⟩

theorem reach_pure (a : α) : InReach (pure a : FsProg α) N d := True.intro

theorem reach_ite {b : Prop} [Decidable b] {p q : FsProg α} (hp : InReach p N d) (hq : InReach q N d) :
    InReach (if b then p else q) N d := by
  split
  · exact hp
  · exact hq

theorem reach_readSectors {lba count : ℕ} (h : lba+count ≤ 2^28) : InReach (ataReadSectors lba count) N d := by
  induction count generalizing lba with
  | zero => exact reach_pure _
  | succ count ih =>
    refine reach_bind (p := readAt lba) ⟨by omega,True.intro⟩ ?_
    split
    · exact reach_pure _
    · refine reach_bind (p := ataReadSectors (lba+1) count) (ih (by omega)) ?_
      split <;> exact reach_pure _

theorem reach_writeSectors {lba : ℕ} {ss : List Sector} (h : lba+ss.length ≤ 2^28) : InReach (ataWriteSectors lba ss) N d := by
  induction ss generalizing lba d with
  | nil => exact reach_pure _
  | cons s ss ih =>
    rw [List.length_cons] at h
    refine reach_bind (p := writeAt lba s) ⟨by omega,True.intro⟩ ?_
    split
    · exact ih (by omega)
    · exact reach_pure _

theorem reach_readSuper : InReach readSuper N d := by
  refine reach_bind (reach_readSectors (by decide)) ?_
  split <;> exact reach_pure _

theorem reach_writeSuper (sb : Sector) : InReach (writeSuper sb) N d :=
  reach_writeSectors (show 129+1 ≤ 2^28 by decide)

theorem reach_readDir : InReach readDir N d := by
  refine reach_bind (reach_readSectors (by decide)) ?_
  split <;> exact reach_pure _

theorem reach_writeDir (dir : Mem) : InReach (writeDir dir) N d := by
  have hlen : (dirSectors dir).length = 8 := by simp [dirSectors,fsDirSectors]
  refine reach_writeSectors ?_
  rw [hlen]
  decide

theorem reach_fsFormat : InReach fsFormat N d := by
  refine reach_bind (reach_writeSuper _) ?_
  split
  · refine reach_bind (reach_writeDir _) ?_
    split <;> exact reach_pure _
  · exact reach_pure _

theorem reach_fsOpen (name : Bytes) : InReach (fsOpen name) N d := by
  refine reach_bind reach_readDir ?_
  split
  · exact reach_pure _
  · split <;> exact reach_pure _

theorem reach_fsDelete (name : Bytes) : InReach (fsDelete name) N d := by
  unfold fsDelete
  split
  · exact reach_pure _
  · refine reach_bind reach_readDir ?_
    split
    · exact reach_pure _
    · split
      · exact reach_pure _
      · refine reach_bind (reach_writeDir _) ?_
        split
        · refine reach_bind reach_readSuper ?_
          split
          · exact reach_pure _
          · split
            · exact reach_bind (reach_writeSuper _) (reach_pure _)
            · exact reach_pure _
        · exact reach_pure _

/-- A handle whose last sector has a 28-bit address. -/
def Reachable (f : File) : Prop := f.startLba+f.size/512 < 2^28

theorem reach_fsReadLoop {fuel remaining : ℕ} {f : File} (hf : Reachable f) (hr : f.pos+remaining ≤ f.size) :
    InReach (fsReadLoop fuel remaining f) N d := by
  induction fuel generalizing remaining f with
  | zero => exact reach_pure _
  | succ fuel ih =>
    rw [fsReadLoop]
    split
    · exact reach_pure _
    · have haddr : (f.startLba+f.pos/512) % 2^32 < 2^28 := by
        have hdiv : f.pos/512 ≤ f.size/512 := Nat.div_le_div_right (by omega)
        unfold Reachable at hf
        have hmod := Nat.mod_le (f.startLba+f.pos/512) (2^32)
        omega
      refine reach_bind ⟨haddr,True.intro⟩ ?_
      split
      · exact reach_pure _
      · refine reach_bind (ih hf ?_) (reach_pure _)
        have hmod := Nat.mod_le (f.pos+min (512-f.pos%512) remaining) (2^32)
        dsimp only
        omega

theorem reach_fsRead {f : File} (len : ℕ) (hf : Reachable f) : InReach (fsRead f len) N d := by
  unfold fsRead
  split
  · exact reach_pure _
  · rename_i h
    exact reach_fsReadLoop hf (by omega)

theorem reach_writeData (hN : N < 2^28) {base n s : ℕ} (rest : Bytes) (h : base+s ≤ N) :
    InReach (writeData base n s rest) N d := by
  induction n generalizing s rest d with
  | zero => exact reach_pure _
  | succ n ih =>
    have haddr : (base+s) % 2^32 = base+s := Nat.mod_eq_of_lt (by omega)
    rw [writeData,haddr]
    refine reach_bind ⟨by omega,True.intro⟩ ?_
    rw [run_writeAt]
    dsimp only
    split
    · rename_i hacc
      have hlt : base+s < N := of_decide_eq_true hacc
      exact ih _ (by omega)
    · exact reach_pure _

theorem reach_fsWriteNew (hN : N < 2^28) (hlba : fsDataLba ≤ N) (h : Volume N d) (name data : Bytes) :
    InReach (fsWriteNew name data) N d := by
  unfold fsWriteNew
  split
  · exact reach_pure _
  · refine reach_bind reach_readSuper ?_
    rw [Transfers.run_readSuper hN.le d (lt_of_lt_of_le (by decide) hlba)]
    dsimp only
    refine reach_bind reach_readDir ?_
    rw [Transfers.run_readDir hN.le d hlba]
    dsimp only
    split
    · exact reach_pure _
    · split
      · exact reach_pure _
      · refine reach_bind (reach_writeData hN _ ?_) ?_
        · rw [DirectoryEdits.scanDir_next]
          exact DirectoryEdits.highestEnd_le h hN.le hlba
        · split
          · refine reach_bind (reach_writeDir _) ?_
            split
            · exact reach_bind (reach_writeSuper _) (reach_ite (reach_pure _) (reach_pure _))
            · exact reach_pure _
          · exact reach_pure _

end Reach

/-! ## Histories over the ports -/

inductive Session (E : Timing) (N : ℕ) : AtaDrive → FileMap → Prop
  | format {x : AtaDrive} {c : Calls ℤ} : Ready x → x.size = N → c.program = fsFormat → Session E N (c.onPorts E x).2 ∅
  | writeNew {x : AtaDrive} {m : FileMap} {c : Calls ℤ} (name : Name) (data : Bytes) : Session E N x m →
      data.length+511 < 2^32 → c.program = fsWriteNew name.val data →
      Session E N (c.onPorts E x).2 (if (c.onPorts E x).1 = 0 then m.insert name data else m)
  | delete {x : AtaDrive} {m : FileMap} {c : Calls ℤ} (name : Name) : Session E N x m →
      c.program = fsDelete name.val → Session E N (c.onPorts E x).2 (if (c.onPorts E x).1 = 0 then m.erase name else m)
  | opened {x : AtaDrive} {m : FileMap} {c : Calls (Option File)} (name : Name) : Session E N x m →
      c.program = fsOpen name.val → Session E N (c.onPorts E x).2 m
  | read {x : AtaDrive} {m : FileMap} {c : Calls (Bytes × File)} (f : File) (len : ℕ) : Session E N x m → Reachable f →
      c.program = fsRead f len → Session E N (c.onPorts E x).2 m

section Session
variable {E : Timing} (hE : E.Prompt) {N : ℕ} {x : AtaDrive} {m : FileMap}
include hE

/-- An operation on the ports of a drive of `N` sectors. -/
theorem operation_spec {p : FsProg α} {c : Calls α} (hx : Ready x) (hs : x.size = N) (hc : c.program = p)
    (hin : InReach p N x.contents) : (c.onPorts E x).1 = (run (drive N) p x.contents).1 ∧
      Ended x (c.onPorts E x).2 (run (drive N) p x.contents).2 := by
  subst hc
  subst hs
  exact onPorts_spec hE c hx hin

variable (hN : N < 2^28) (hlba : fsDataLba ≤ N)
include hN hlba

/-- Over the ports and on the sectors the same history happens. -/
theorem Session.history (h : Session E N x m) : Ready x ∧ x.size = N ∧ History N x.contents m := by
  induction h with
  | format hx hs hc =>
    obtain ⟨-,hend⟩ := operation_spec hE hx hs hc reach_fsFormat
    refine ⟨hend.ready,hend.size.trans hs,?_⟩
    rw [hend.contents]
    exact .format _
  | writeNew name data _ hlen hc ih =>
    obtain ⟨hx,hs,hist⟩ := ih
    have hv := (hist.represents hN.le hlba).1
    obtain ⟨hres,hend⟩ := operation_spec hE hx hs hc (reach_fsWriteNew hN hlba hv name.val data)
    refine ⟨hend.ready,hend.size.trans hs,?_⟩
    rw [hend.contents,hres]
    exact .writeNew name data hist hlen
  | delete name _ hc ih =>
    obtain ⟨hx,hs,hist⟩ := ih
    obtain ⟨hres,hend⟩ := operation_spec hE hx hs hc (reach_fsDelete name.val)
    refine ⟨hend.ready,hend.size.trans hs,?_⟩
    rw [hend.contents,hres]
    exact .delete name hist
  | opened name _ hc ih =>
    obtain ⟨hx,hs,hist⟩ := ih
    obtain ⟨-,hend⟩ := operation_spec hE hx hs hc (reach_fsOpen name.val)
    refine ⟨hend.ready,hend.size.trans hs,?_⟩
    rw [hend.contents]
    exact .opened name hist
  | read f len _ hf hc ih =>
    obtain ⟨hx,hs,hist⟩ := ih
    obtain ⟨-,hend⟩ := operation_spec hE hx hs hc (reach_fsRead len hf)
    refine ⟨hend.ready,hend.size.trans hs,?_⟩
    rw [hend.contents]
    exact .read f len hist

omit hE hlba in
theorem reach_fsReads {d : Disk Sector} {start size pos : ℕ} (hstop : start+sectorsOf size ≤ N) (hsize : size+511 < 2^32)
    (hpos : pos ≤ size) (lens : List ℕ) : InReach (fsReads ⟨start,size,pos,true⟩ lens) N d := by
  have hf : ∀ p, Reachable ⟨start,size,p,true⟩ := by
    intro p
    unfold sectorsOf at hstop
    unfold Reachable
    dsimp only
    omega
  induction lens generalizing pos with
  | nil => exact reach_pure _
  | cons len lens ih =>
    refine reach_bind (reach_fsRead len (hf pos)) ?_
    rw [run_fsRead hN.le hstop hsize pos len hpos]
    exact reach_bind (ih (min_le_right _ _)) (reach_pure _)

omit hE in
/-- `fs_open` leaves the disk alone, and its handle is at the start of a file on it. -/
theorem opened_handle {d : Disk Sector} (h : Volume N d) (name : Bytes) :
    (run (drive N) (fsOpen name) d).2 = d ∧ ∀ f, (run (drive N) (fsOpen name) d).1 = some f →
      ∃ start size, f = ⟨start,size,0,true⟩ ∧ start+sectorsOf size ≤ N ∧ size+511 < 2^32 := by
  rw [fsOpen,run_bind,Transfers.run_readDir hN.le d hlba]
  dsimp only
  cases hf : findEntry (dirOf d) name with
  | none => exact ⟨rfl,fun f hsome => by cases hsome⟩
  | some i =>
    obtain ⟨hi,hm⟩ := findEntry_some hf
    have hp := h.placed i hi hm.1
    refine ⟨rfl,?_⟩
    intro f hsome
    cases hsome
    exact ⟨_,_,rfl,hp.stop,hp.size⟩

end Session

/-- What the calls after a history over the ports return. -/
structure PortRefines (E : Timing) (N : ℕ) (x : AtaDrive) (m : FileMap) : Prop where
  represents : Represents x.contents m
  driven : Driven fsFormat ∧ (∀ name data, Driven (fsWriteNew name data)) ∧ (∀ name, Driven (fsDelete name)) ∧
    (∀ name, Driven (fsOpen name)) ∧ ∀ f len, Driven (fsRead f len)
  format : ∀ c : Calls ℤ, c.program = fsFormat → (c.onPorts E x).1 = 0
  writeNew : ∀ (name : Name) (data : Bytes) (c : Calls ℤ), data.length+511 < 2^32 → c.program = fsWriteNew name.val data →
    ((c.onPorts E x).1 = 0 ∧ ¬ Refused N x.contents m name data) ∨
    ((c.onPorts E x).1 = -1 ∧ Refused N x.contents m name data)
  delete : ∀ (name : Name) (c : Calls ℤ), c.program = fsDelete name.val →
    ((c.onPorts E x).1 = 0 ∧ name ∈ m) ∨ ((c.onPorts E x).1 = -1 ∧ name ∉ m)
  opens : ∀ (name : Name) (c : Calls (Option File)), c.program = fsOpen name.val →
    ((c.onPorts E x).1.isSome = true ↔ name ∈ m)
  reads : ∀ (name : Name) (c : Calls (Option File)) (f : File), c.program = fsOpen name.val → (c.onPorts E x).1 = some f →
    ∃ data, m.lookup name = some data ∧ ∀ (lens : List ℕ) (r : Calls Bytes), r.program = fsReads f lens →
      (r.onPorts E (c.onPorts E x).2).1 = data.take lens.sum

theorem session_refines_map {E : Timing} (hE : E.Prompt) {N : ℕ} (hN : N < 2^28) (hlba : fsDataLba ≤ N) {x : AtaDrive}
    {m : FileMap} (h : Session E N x m) : PortRefines E N x m := by
  obtain ⟨hx,hs,hist⟩ := h.history hE hN hlba
  obtain ⟨hv,hm⟩ := hist.represents hN.le hlba
  constructor
  case represents => exact hm
  case driven => exact ⟨driven_fsFormat,driven_fsWriteNew,driven_fsDelete,driven_fsOpen,driven_fsRead⟩
  case format =>
    intro c hc
    obtain ⟨d',hrun,-⟩ := DirectoryEdits.run_fsFormat hN.le hlba x.contents
    rw [(operation_spec hE hx hs hc reach_fsFormat).1,hrun]
  case writeNew =>
    intro name data c hlen hc
    rw [(operation_spec hE hx hs hc (reach_fsWriteNew hN hlba hv name.val data)).1]
    rcases (fsWriteNew_spec hN.le hlba hv hm name hlen).2 with ⟨hr,hfits,-⟩ | ⟨hr,hrefused,-⟩
    · exact Or.inl ⟨hr,hfits⟩
    · exact Or.inr ⟨hr,hrefused⟩
  case delete =>
    intro name c hc
    rw [(operation_spec hE hx hs hc (reach_fsDelete name.val)).1]
    rcases (fsDelete_spec hN.le hlba hv hm name).2 with ⟨hin,hr,-⟩ | ⟨hout,hr⟩
    · exact Or.inl ⟨hr,hin⟩
    · exact Or.inr ⟨congrArg Prod.fst hr,hout⟩
  case opens =>
    intro name c hc
    rw [(operation_spec hE hx hs hc (reach_fsOpen name.val)).1]
    rcases fsOpen_spec hN.le hlba hv hm name with ⟨hout,hr⟩ | ⟨f,data,hlookup,hr,-⟩
    · rw [hr]
      exact iff_of_false Bool.false_ne_true hout
    · rw [hr]
      exact iff_of_true rfl (Finmap.mem_of_lookup_eq_some hlookup)
  case reads =>
    intro name c f hc hf
    obtain ⟨hres,hend⟩ := operation_spec hE hx hs hc (reach_fsOpen name.val)
    rw [hres] at hf
    obtain ⟨hdisk,hhandle⟩ := opened_handle hN hlba hv name.val
    obtain ⟨start,size,rfl,hstop,hsize⟩ := hhandle f hf
    rcases fsOpen_spec hN.le hlba hv hm name with ⟨-,hr⟩ | ⟨f,data,hlookup,hr,hreads⟩
    · rw [hr] at hf
      cases hf
    · rw [hr] at hf
      cases hf
      refine ⟨data,hlookup,?_⟩
      intro lens r hp
      have hcont := hend.contents.trans hdisk
      have hreach := reach_fsReads hN (d := x.contents) hstop hsize (Nat.zero_le size) lens
      rw [← hcont] at hreach
      rw [(operation_spec hE hend.ready (hend.size.trans hs) hp hreach).1,hcont]
      exact hreads lens

/-- A drive of 200 sectors that is busy for three status reads at a time. -/
def slowDrive : AtaDrive := ⟨200,fun _ _ => 0,fun _ => 0,.idle,false,0,0,0,0,0,0,0,0⟩

def slowTiming : Timing := ⟨fun _ => 3,fun n => if n%2 = 0 then 0x50 else 0xFF⟩

theorem session_refines_map_sample : ∃ x m, Session slowTiming 200 x m ∧ PortRefines slowTiming 200 x m := by
  have hE : slowTiming.Prompt := fun _ => (by decide : 3 < pollLimit)
  obtain ⟨c,hc⟩ := driven_fsFormat
  obtain ⟨w,hw⟩ := driven_fsWriteNew [0x61] [1,2,3]
  have hfound := (ataInit_spec hE (d := slowDrive) rfl (by decide : 200 ≤ 2^28)).2
  have h := Session.writeNew (E := slowTiming) ⟨[0x61],by decide⟩ [1,2,3] (.format hfound.ready hfound.size hc) (by decide) hw
  exact ⟨_,_,h,session_refines_map hE (by decide) (by decide) h⟩

end VesperOS.DriverCalls
