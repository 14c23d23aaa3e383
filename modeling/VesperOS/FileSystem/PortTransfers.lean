import VesperOS.FileSystem.AtaPorts
import VesperOS.FileSystem.Transfers

/-! # Calls of the ATA driver

A drive that is done with every sector before the driver stops polling serves the calls as `VesperFs.drive` does: the
result of `ata_read_sectors` and `ata_write_sectors`, the words in the buffer and the disk are those of the sector
programs, and the drive is between two commands again.
-/
namespace VesperOS.PortTransfers
open PortIO DiskProgram VesperFs AtaPorts Transfers
open AtaPorts.AtaDrive hiding lba

variable {E : Timing}

theorem status_busy {d : AtaDrive} (h : 0 < d.busy) :
    d.status E &&& ataSrBsy ≠ 0 ∧ d.status E &&& ataSrErr = 0 := by
  have hb : (0x7E : UInt8) &&& ataSrBsy = 0 := by decide
  have he : (0x7E : UInt8) &&& ataSrErr = 0 := by decide
  simp only [status,h,if_true,or_and_distrib,UInt8.and_assoc,hb,he,UInt8.and_zero,UInt8.or_zero]
  decide

theorem drqFlag_bits (t : Transfer) : drqFlag t &&& ataSrBsy = 0 ∧ drqFlag t &&& ataSrErr = 0 ∧
    drqFlag t &&& ataSrDrq = drqFlag t := by
  unfold drqFlag
  split <;> decide

theorem errFlag_bits (b : Bool) : errFlag b &&& ataSrBsy = 0 ∧ errFlag b &&& ataSrErr = errFlag b ∧
    errFlag b &&& ataSrDrq = 0 := by
  cases b <;> decide

theorem status_free {d : AtaDrive} (h : d.busy = 0) : d.status E &&& ataSrBsy = 0 ∧
    d.status E &&& ataSrErr = errFlag d.failed ∧ d.status E &&& ataSrDrq = drqFlag d.transfer := by
  have hb : (0x76 : UInt8) &&& ataSrBsy = 0 := by decide
  have he : (0x76 : UInt8) &&& ataSrErr = 0 := by decide
  have hd : (0x76 : UInt8) &&& ataSrDrq = 0 := by decide
  obtain ⟨hdb,hde,hdd⟩ := drqFlag_bits d.transfer
  obtain ⟨heb,hee,hed⟩ := errFlag_bits d.failed
  simp only [status,h,Nat.lt_irrefl,if_false,or_and_distrib,UInt8.and_assoc,hb,he,hd,hdb,hde,hdd,heb,hee,hed,
    UInt8.and_zero,UInt8.zero_or,UInt8.or_zero,and_self]

theorem sectorOf_wordsOf (s : Sector) : sectorOf (wordsOf s) = s := by
  funext i
  have hs : sectorMem s i.val = s i := by simp [sectorMem]
  have hlow := (sectorMem s (2*(i.val/2))).toNat_lt
  have hhigh := (sectorMem s (2*(i.val/2)+1)).toNat_lt
  apply UInt8.toNat_inj.mp
  unfold sectorOf
  split
  · rename_i h
    have ha : i.val = 2*(i.val/2) := by omega
    rw [← hs,UInt8.toNat_ofNat',wordsOf,UInt16.toNat_ofNat',ha]
    simp only [Nat.mul_div_cancel_left _ (Nat.zero_lt_two)]
    omega
  · rename_i h
    have ha : i.val = 2*(i.val/2)+1 := by omega
    rw [← hs,UInt8.toNat_ofNat',wordsOf,UInt16.toNat_ofNat']
    rw [← ha] at hhigh ⊢
    omega

theorem head_field (lba : UInt32) :
    ((0xE0 : UInt32) ||| ((lba >>> 24) &&& 0x0F)).toUInt8.toNat % 16 = lba.toNat / 2^24 % 16 := by
  have hm : (0x0F : UInt32).toNat = 2^4-1 := rfl
  simp only [UInt32.toNat_toUInt8,UInt32.toNat_or,UInt32.toNat_and,UInt32.toNat_shiftRight,hm,Nat.and_two_pow_sub_one_eq_mod]
  rw [Nat.mod_mod_of_dvd _ (by decide : 16 ∣ 2^8),show (16:ℕ) = 2^4 from rfl,Nat.or_mod_two_pow]
  simp [Nat.shiftRight_eq_div_pow]

theorem byte_field (lba : UInt32) (k : UInt32) (hk : k.toNat < 32) :
    ((lba >>> k) &&& 0xFF).toUInt8.toNat = lba.toNat / 2^k.toNat % 2^8 := by
  have hm : (0xFF : UInt32).toNat = 2^8-1 := rfl
  simp only [UInt32.toNat_toUInt8,UInt32.toNat_and,UInt32.toNat_shiftRight,hm,Nat.and_two_pow_sub_one_eq_mod]
  rw [Nat.mod_mod,Nat.mod_eq_of_lt hk,Nat.shiftRight_eq_div_pow]

theorem wait_not_busy {d : AtaDrive} (hd : d.busy < pollLimit) :
    (ataWaitNotBusy (ports E) d).1 = true ∧
      (ataWaitNotBusy (ports E) d).2.core = d.core ∧ (ataWaitNotBusy (ports E) d).2.busy = 0 := by
  have hpoll := poll_spec (P := ports E) (n := ataStatus) (f := notBusy) (I := fun s => s.core = d.core)
    (Q := fun s => s.core = d.core ∧ s.busy = 0) (r := busy) (a := ()) ?_ ?_ rfl hd
  · obtain ⟨hsome,hq⟩ := hpoll
    refine ⟨?_,hq⟩
    change (poll (ports E) ataStatus notBusy pollLimit d).1.isSome = true
    rw [hsome]
    rfl
  · intro s hs hpos
    refine ⟨if_neg (status_busy hpos).1,hs,?_⟩
    exact Nat.sub_add_cancel hpos
  · intro s hs h0
    refine ⟨if_pos (status_free h0).1,hs,?_⟩
    change s.busy-1 = 0
    rw [h0]

/-- The answer once the drive is free: a failed command wins over a waiting one. -/
theorem wait_drq {d : AtaDrive} (hd : d.busy < pollLimit) (ht : d.failed = true ∨ d.transfer ≠ .idle) :
    (ataWaitDrq (ports E) d).1 = !d.failed ∧
      (ataWaitDrq (ports E) d).2.core = d.core ∧ (ataWaitDrq (ports E) d).2.busy = 0 := by
  have hpoll := poll_spec (P := ports E) (n := ataStatus) (f := dataRequest) (I := fun s => s.core = d.core)
    (Q := fun s => s.core = d.core ∧ s.busy = 0) (r := busy) (a := !d.failed) ?_ ?_ rfl hd
  · obtain ⟨hsome,hq⟩ := hpoll
    refine ⟨?_,hq⟩
    change decide ((poll (ports E) ataStatus dataRequest pollLimit d).1 = some true) = !d.failed
    rw [hsome]
    cases d.failed <;> rfl
  · intro s hs hpos
    obtain ⟨hbusy,herr⟩ := status_busy (E := E) hpos
    refine ⟨?_,hs,Nat.sub_add_cancel hpos⟩
    change dataRequest (s.status E) = none
    unfold dataRequest
    rw [if_neg (not_not.mpr herr),if_neg]
    exact fun h => hbusy h.1
  · intro s hs h0
    obtain ⟨hbusy,herr,hdrq⟩ := status_free (E := E) h0
    have hf : s.failed = d.failed := (congrArg AtaDrive.failed hs :)
    have hx : s.transfer = d.transfer := (congrArg AtaDrive.transfer hs :)
    refine ⟨?_,hs,by change s.busy-1 = 0; rw [h0]⟩
    change dataRequest (s.status E) = some (!d.failed)
    unfold dataRequest
    rw [herr,hbusy,hdrq,hf,hx]
    cases hfail : d.failed with
    | true => rfl
    | false =>
      have hne : d.transfer ≠ .idle := ht.resolve_left (by simp [hfail])
      revert hne
      cases d.transfer <;> simp [errFlag,drqFlag,ataSrDrq]

theorem delay_core (n : ℕ) (d : AtaDrive) : (skip (ports E) ataAltStatus n d).core = d.core ∧
    (skip (ports E) ataAltStatus n d).busy ≤ d.busy := by
  refine skip_spec (I := fun s : AtaDrive => s.core = d.core ∧ s.busy ≤ d.busy) ?_ n ⟨rfl,le_refl _⟩
  rintro s ⟨hs,hb⟩
  exact ⟨hs,(Nat.sub_le _ _).trans hb⟩

theorem advance_transfer (mk : ℕ → ℕ → ℕ → Transfer) (t : Transfer) (lba left : ℕ) (d : AtaDrive) :
    ({ d with transfer := t } : AtaDrive).advance E mk lba left = d.advance E mk lba left := by
  unfold advance
  split
  · rfl
  · split <;> rfl

theorem read_words {d : AtaDrive} {lba left w n : ℕ} (hb : d.busy = 0) (ht : d.transfer = .read lba left w)
    (hn : w+(n+1) = 256) : readWords (ports E) ataData (n+1) d =
      ((List.range (n+1)).map (fun i => d.disk lba (w+i)),d.advance E .read (lba+1) (left-1)) := by
  induction n generalizing d w with
  | zero =>
    have hin : (ports E).inw ataData d = (d.disk lba w,d.advance E .read (lba+1) (left-1)) := by
      simp [ports,inw,hb,ht,show w+1 = 256 from hn]
    simp [readWords,hin]
  | succ n ih =>
    have hin : (ports E).inw ataData d = (d.disk lba w,{ d with transfer := .read lba left (w+1) }) := by
      simp [ports,inw,hb,ht,show w+1 ≠ 256 by omega]
    have hrest := ih (d := { d with transfer := .read lba left (w+1) }) hb rfl (by omega)
    have hsplit : List.range (n+1+1) = 0 :: (List.range (n+1)).map Nat.succ := List.range_succ_eq_map
    have hshift : (List.range (n+1)).map (fun i => d.disk lba (w+1+i)) =
        (List.range (n+1)).map ((fun i => d.disk lba (w+i)) ∘ Nat.succ) := by
      apply List.map_congr_left
      intro i _
      change _ = d.disk lba (w+(i+1))
      rw [Nat.add_assoc w 1 i,Nat.add_comm 1 i]
    rw [readWords,hin,hrest,advance_transfer,hsplit,List.map_cons,List.map_map,hshift]
    rfl

theorem write_words {d : AtaDrive} {lba left w : ℕ} (v : UInt16) (vs : List UInt16) (hb : d.busy = 0)
    (ht : d.transfer = .write lba left w) (hn : w+(vs.length+1) = 256) :
    ∃ b : ℕ → UInt16, (∀ j < w, b j = d.buffer j) ∧ (∀ i < vs.length+1, b (w+i) = (v :: vs).getD i 0) ∧
      writeWords (ports E) ataData (v :: vs) d =
        (d.store lba b).advance E .write (lba+1) (left-1) := by
  induction vs generalizing d w v with
  | nil =>
    refine ⟨Function.update d.buffer w v,?_,?_,?_⟩
    · intro j hj
      exact Function.update_of_ne (show j ≠ w by omega) v d.buffer
    · intro i hi
      obtain rfl : i = 0 := by simpa using hi
      simp
    · obtain rfl : w = 255 := by simpa using hn
      simp [writeWords,ports,outw,hb,ht,store]
  | cons v' vs ih =>
    have hout : (ports E).outw ataData v d =
        { d with buffer := Function.update d.buffer w v, transfer := .write lba left (w+1) } := by
      have hw : w+1 ≠ 256 := by
        rw [List.length_cons] at hn
        omega
      simp [ports,outw,hb,ht,hw]
    obtain ⟨b,hbefore,hfrom,hfinal⟩ := ih (d := { d with buffer := Function.update d.buffer w v, transfer := .write lba left (w+1) })
      v' hb rfl (by rw [List.length_cons] at hn; omega)
    refine ⟨b,?_,?_,?_⟩
    · intro j hj
      rw [hbefore j (by omega)]
      exact Function.update_of_ne (show j ≠ w by omega) v d.buffer
    · intro i hi
      cases i with
      | zero =>
        rw [Nat.add_zero,hbefore w (by omega)]
        simp
      | succ i =>
        have hi' := hfrom i (by rw [List.length_cons] at hi; omega)
        rw [show w+(i+1) = w+1+i by omega,hi']
        rfl
    · have hstep : writeWords (ports E) ataData (v :: v' :: vs) d = writeWords (ports E) ataData (v' :: vs) ((ports E).outw ataData v d) := rfl
      rw [hstep,hout,hfinal]
      exact advance_transfer .write (.write lba left (w+1)) (lba+1) (left-1) (d.store lba b)

/-! ## Contents -/

theorem sectorOf_congr {w v : ℕ → UInt16} (h : ∀ j < 256, w j = v j) : sectorOf w = sectorOf v := by
  funext i
  have hi := i.isLt
  unfold sectorOf
  rw [h (i.val/2) (by omega)]

theorem contents_store (d : AtaDrive) (lba : ℕ) (b : ℕ → UInt16) :
    (d.store lba b).contents = Function.update d.contents lba (sectorOf b) := by
  funext a
  change sectorOf (Function.update d.disk lba b a) = _
  by_cases ha : a = lba
  · rw [ha,Function.update_self,Function.update_self]
  · rw [Function.update_of_ne ha,Function.update_of_ne ha]
    rfl

def toSectors : ℕ → List UInt16 → List Sector
  | 0, _ => []
  | n+1, ws => sectorOf (fun j => ws.getD j 0) :: toSectors n (ws.drop 256)

/-- Between two calls: nothing is under way, and the drive does not stay busy for longer than the driver waits. -/
structure Ready (d : AtaDrive) : Prop where
  idle : d.transfer = .idle
  busy : d.busy < pollLimit
  size : d.size ≤ 2^28

/-- A drive that has just taken a command, or a sector of one. -/
structure Serving (E : Timing) (mk : ℕ → ℕ → ℕ → Transfer) (lba left : ℕ) (x d : AtaDrive) : Prop where
  core : d.core = (x.advance E mk lba left).core
  busy : d.busy < pollLimit
  fresh : x.failed = false
  size : x.size ≤ 2^28

theorem core_contents {d s : AtaDrive} (h : s.core = d.core) : s.contents = d.contents := by
  have hdisk : s.disk = d.disk := (congrArg AtaDrive.disk h :)
  funext a
  unfold AtaDrive.contents
  rw [hdisk]

theorem advance_fields (mk : ℕ → ℕ → ℕ → Transfer) (lba left : ℕ) (x : AtaDrive) :
    (x.advance E mk lba left).disk = x.disk ∧ (x.advance E mk lba left).size = x.size ∧
      (x.advance E mk lba left).buffer = x.buffer := by
  unfold advance
  split
  · exact ⟨rfl,rfl,rfl⟩
  · split <;> exact ⟨rfl,rfl,rfl⟩

theorem advance_busy (hE : E.Prompt) (mk : ℕ → ℕ → ℕ → Transfer) (lba left : ℕ) (x : AtaDrive) :
    (x.advance E mk lba left).busy < pollLimit := by
  unfold advance
  split
  · exact hE _
  · split <;> exact hE _

section Serving
variable {mk : ℕ → ℕ → ℕ → Transfer} {lba left : ℕ} {x d : AtaDrive} (h : Serving E mk lba left x d)
include h

theorem Serving.size_eq : d.size = x.size :=
  (congrArg AtaDrive.size h.core :).trans (advance_fields mk lba left x).2.1

theorem Serving.contents_eq : d.contents = x.contents := by
  rw [core_contents h.core]
  funext a
  unfold AtaDrive.contents
  rw [(advance_fields mk lba left x).1]

end Serving

theorem Serving.done {mk : ℕ → ℕ → ℕ → Transfer} {lba : ℕ} {x d : AtaDrive} (h : Serving E mk lba 0 x d) : Ready d := by
  refine ⟨(congrArg AtaDrive.transfer h.core :),h.busy,?_⟩
  rw [h.size_eq]
  exact h.size

section Steps
variable {mk : ℕ → ℕ → ℕ → Transfer} {lba k : ℕ} {x d : AtaDrive} (h : Serving E mk lba (k+1) x d)
include h

theorem Serving.inside (hlt : lba < x.size) : d.failed = false ∧ d.transfer = mk lba (k+1) 0 := by
  have hadv : x.advance E mk lba (k+1) = x.start E (mk lba (k+1) 0) := by simp [advance,hlt]
  have hc := h.core
  rw [hadv] at hc
  exact ⟨(congrArg AtaDrive.failed hc :).trans h.fresh,(congrArg AtaDrive.transfer hc :)⟩

theorem Serving.outside (hge : ¬ lba < x.size) : d.failed = true ∧ d.transfer = .idle := by
  have hadv : x.advance E mk lba (k+1) = { x.start E .idle with failed := true } := by simp [advance,hge]
  have hc := h.core
  rw [hadv] at hc
  exact ⟨(congrArg AtaDrive.failed hc :),(congrArg AtaDrive.transfer hc :)⟩

/-- Past the end of the disk the wait ends with the error. -/
theorem Serving.refused (hge : ¬ lba < x.size) : (ataWaitDrq (ports E) d).1 = false ∧
    Ready (ataWaitDrq (ports E) d).2 ∧ (ataWaitDrq (ports E) d).2.core = d.core := by
  obtain ⟨hfail,hidle⟩ := h.outside hge
  obtain ⟨hw,hcore,hbusy⟩ := wait_drq (E := E) h.busy (Or.inl hfail)
  refine ⟨by rw [hw,hfail]; rfl,⟨?_,by rw [hbusy]; decide,?_⟩,hcore⟩
  · exact (congrArg AtaDrive.transfer hcore :).trans hidle
  · have hs : (ataWaitDrq (ports E) d).2.size = d.size := (congrArg AtaDrive.size hcore :)
    rw [hs,h.size_eq]
    exact h.size

theorem Serving.ready (hmk : ∀ l n w, mk l n w ≠ .idle) (hlt : lba < x.size) : (ataWaitDrq (ports E) d).1 = true ∧
    (ataWaitDrq (ports E) d).2.core = d.core ∧ (ataWaitDrq (ports E) d).2.busy = 0 ∧
    (ataWaitDrq (ports E) d).2.transfer = mk lba (k+1) 0 := by
  obtain ⟨hok,ht⟩ := h.inside hlt
  obtain ⟨hw,hcore,hbusy⟩ := wait_drq (E := E) h.busy (Or.inr (by rw [ht]; exact hmk lba (k+1) 0))
  refine ⟨by rw [hw,hok]; rfl,hcore,hbusy,?_⟩
  exact (congrArg AtaDrive.transfer hcore :).trans ht

end Steps

theorem serving_after (hE : E.Prompt) (mk : ℕ → ℕ → ℕ → Transfer) (lba k : ℕ) {x : AtaDrive} (hf : x.failed = false)
    (hs : x.size ≤ 2^28) : Serving E mk lba k x (ataDelay400ns (ports E) (x.advance E mk lba k)) := by
  obtain ⟨hcore,hbusy⟩ := delay_core (E := E) 4 (x.advance E mk lba k)
  exact ⟨hcore,hbusy.trans_lt (advance_busy hE mk lba k x),hf,hs⟩

/-! ## The sector programs -/

section Programs
variable {N : ℕ} (hN : N ≤ 2^28) {lba : ℕ} (c : Disk Sector)
include hN

theorem run_read_accepted (hlt : lba < N) (k : ℕ) :
    run (drive N) (VesperFs.ataReadSectors lba (k+1)) c =
      ((run (drive N) (VesperFs.ataReadSectors (lba+1) k) c).1.map (fun ss => c lba :: ss),
        (run (drive N) (VesperFs.ataReadSectors (lba+1) k) c).2) := by
  have hacc : (drive N).accepts lba = true := decide_eq_true hlt
  have hplace := place_of_accepts hN hacc
  simp only [VesperFs.ataReadSectors,run_bind,run_readAt,hacc,if_true,hplace]
  cases hr : (run (drive N) (VesperFs.ataReadSectors (lba+1) k) c).1 <;> simp

omit hN in
theorem run_read_refused (hge : ¬ lba < N) (k : ℕ) :
    run (drive N) (VesperFs.ataReadSectors lba (k+1)) c = (none,c) := by
  have hacc : (drive N).accepts lba = false := decide_eq_false hge
  simp [VesperFs.ataReadSectors,hacc]

theorem run_write_accepted (hlt : lba < N) (s : Sector) (ss : List Sector) :
    run (drive N) (VesperFs.ataWriteSectors lba (s :: ss)) c =
      run (drive N) (VesperFs.ataWriteSectors (lba+1) ss) (Function.update c lba s) := by
  have hacc : (drive N).accepts lba = true := decide_eq_true hlt
  have hplace := place_of_accepts hN hacc
  simp only [VesperFs.ataWriteSectors,run_bind,run_writeAt,hacc,if_true,hplace]

omit hN in
theorem run_write_refused (hge : ¬ lba < N) (s : Sector) (ss : List Sector) :
    run (drive N) (VesperFs.ataWriteSectors lba (s :: ss)) c = (false,c) := by
  have hacc : (drive N).accepts lba = false := decide_eq_false hge
  simp [VesperFs.ataWriteSectors,hacc]

end Programs

/-! ## The sector loops -/

/-- A call has ended: its disk is `c`, and the next call finds the drive between two commands. -/
structure Ended (x d : AtaDrive) (c : Disk Sector) : Prop where
  ready : Ready d
  size : d.size = x.size
  contents : d.contents = c

theorem toSectors_append {k : ℕ} (f : ℕ → UInt16) (ws : List UInt16) :
    toSectors (k+1) ((List.range 256).map f++ws) = sectorOf f :: toSectors k ws := by
  have hhead : sectorOf (fun j => ((List.range 256).map f++ws).getD j 0) = sectorOf f := by
    apply sectorOf_congr
    intro j hj
    rw [List.getD_eq_getElem?_getD,List.getElem?_append_left (by simpa using hj)]
    simp [hj]
  have htail : ((List.range 256).map f++ws).drop 256 = ws := List.drop_left' (by simp)
  rw [toSectors,hhead,htail]

/-- What a call of `ata_read_sectors` has delivered. -/
def delivered (count : ℕ) (r : Bool × List UInt16) : Option (List Sector) :=
  if r.1 then some (toSectors count r.2) else none

theorem delivered_sector {k : ℕ} (f : ℕ → UInt16) (r : Bool × List UInt16) :
    delivered (k+1) (r.1,(List.range 256).map f++r.2) = (delivered k r).map (fun ss => sectorOf f :: ss) := by
  unfold delivered
  dsimp only
  rw [toSectors_append]
  split <;> rfl

/-- One turn of the read loop. -/
theorem readLoop_sector {d : AtaDrive} {lba k : ℕ} (hw : (ataWaitDrq (ports E) d).1 = true)
    (hb : (ataWaitDrq (ports E) d).2.busy = 0) (ht : (ataWaitDrq (ports E) d).2.transfer = .read lba (k+1) 0) :
    let y := (ataWaitDrq (ports E) d).2
    let r := readLoop (ports E) k (ataDelay400ns (ports E) (y.advance E .read (lba+1) k))
    readLoop (ports E) (k+1) d = ((r.1.1,(List.range 256).map (y.disk lba)++r.1.2),r.2) := by
  have hwords := read_words (E := E) (n := 255) hb ht (by omega)
  simp only [Nat.zero_add,Nat.add_sub_cancel] at hwords
  simp only [readLoop,hw,if_true,hwords]

theorem readLoop_spec (hE : E.Prompt) {lba k : ℕ} {x d : AtaDrive} (h : Serving E .read lba k x d) :
    delivered k (readLoop (ports E) k d).1 = (run (drive x.size) (VesperFs.ataReadSectors lba k) x.contents).1 ∧
      Ended x (readLoop (ports E) k d).2 (run (drive x.size) (VesperFs.ataReadSectors lba k) x.contents).2 := by
  induction k generalizing lba x d with
  | zero => exact ⟨rfl,h.done,h.size_eq,h.contents_eq⟩
  | succ k ih =>
    by_cases hlt : lba < x.size
    · obtain ⟨hw,hcore,hbusy,ht⟩ := h.ready (fun _ _ _ => Transfer.noConfusion) hlt
      have hloop := readLoop_sector hw hbusy ht
      generalize (ataWaitDrq (ports E) d).2 = y at hcore hloop
      have hfail : y.failed = false := (congrArg AtaDrive.failed hcore :).trans (h.inside hlt).1
      have hsize : y.size = x.size := (congrArg AtaDrive.size hcore :).trans h.size_eq
      have hcont : y.contents = x.contents := (core_contents hcore).trans h.contents_eq
      have hnext := serving_after hE .read (lba+1) k hfail (by rw [hsize]; exact h.size)
      obtain ⟨hres,hend⟩ := ih hnext
      rw [hsize,hcont] at hres hend
      rw [hloop,run_read_accepted h.size x.contents hlt k]
      refine ⟨?_,hend.ready,hend.size.trans hsize,hend.contents⟩
      rw [delivered_sector,hres,← hcont]
      rfl
    · obtain ⟨hw,hready,hcore⟩ := h.refused hlt
      have hloop : readLoop (ports E) (k+1) d = ((false,[]),(ataWaitDrq (ports E) d).2) := by simp [readLoop,hw]
      rw [hloop,run_read_refused x.contents hlt k]
      exact ⟨rfl,hready,(congrArg AtaDrive.size hcore :).trans h.size_eq,(core_contents hcore).trans h.contents_eq⟩

/-- The sectors of a buffer. -/
def bufferSectors (buf : ℕ → UInt16) (i k : ℕ) : List Sector :=
  (List.range' i k).map fun i => sectorOf fun j => buf (256*i+j)

theorem writeLoop_sector (buf : ℕ → UInt16) (i : ℕ) {d : AtaDrive} {lba k : ℕ} (hw : (ataWaitDrq (ports E) d).1 = true)
    (hb : (ataWaitDrq (ports E) d).2.busy = 0) (ht : (ataWaitDrq (ports E) d).2.transfer = .write lba (k+1) 0) :
    ∃ b : ℕ → UInt16, sectorOf b = sectorOf (fun j => buf (256*i+j)) ∧
      writeLoop (ports E) buf (k+1) i d = writeLoop (ports E) buf k (i+1) (ataDelay400ns (ports E)
        (((ataWaitDrq (ports E) d).2.store lba b).advance E .write (lba+1) k)) := by
  have hcons : bufferWords buf i = buf (256*i) :: (List.range' 1 255).map (fun j => buf (256*i+j)) := by
    rw [bufferWords,List.range_eq_range',List.range'_succ,List.map_cons,Nat.add_zero]
  have hlen : ((List.range' 1 255).map (fun j => buf (256*i+j))).length = 255 := by simp
  obtain ⟨b,-,hfrom,hfinal⟩ := write_words (E := E) (buf (256*i)) ((List.range' 1 255).map (fun j => buf (256*i+j))) hb ht
    (by rw [hlen])
  rw [hlen,← hcons] at hfrom
  rw [← hcons] at hfinal
  refine ⟨b,?_,?_⟩
  · apply sectorOf_congr
    intro j hj
    have h := hfrom j hj
    rw [Nat.zero_add] at h
    rw [h]
    simp [bufferWords,hj]
  · simp only [writeLoop,hw,if_true,hfinal,Nat.add_sub_cancel]

theorem writeLoop_spec (hE : E.Prompt) (buf : ℕ → UInt16) {lba k i : ℕ} {x d : AtaDrive} (h : Serving E .write lba k x d) :
    let r := run (drive x.size) (VesperFs.ataWriteSectors lba (bufferSectors buf i k)) x.contents
    (writeLoop (ports E) buf k i d).1 = r.1 ∧ Ended x (writeLoop (ports E) buf k i d).2 r.2 := by
  induction k generalizing lba x d i with
  | zero => exact ⟨rfl,h.done,h.size_eq,h.contents_eq⟩
  | succ k ih =>
    have hcons : bufferSectors buf i (k+1) = sectorOf (fun j => buf (256*i+j)) :: bufferSectors buf (i+1) k := by
      rw [bufferSectors,List.range'_succ,List.map_cons]
      rfl
    rw [hcons]
    by_cases hlt : lba < x.size
    · obtain ⟨hw,hcore,hbusy,ht⟩ := h.ready (fun _ _ _ => Transfer.noConfusion) hlt
      obtain ⟨b,hb,hloop⟩ := writeLoop_sector buf i hw hbusy ht
      generalize (ataWaitDrq (ports E) d).2 = y at hcore hloop
      have hfail : y.failed = false := (congrArg AtaDrive.failed hcore :).trans (h.inside hlt).1
      have hsize : y.size = x.size := (congrArg AtaDrive.size hcore :).trans h.size_eq
      have hcont : y.contents = x.contents := (core_contents hcore).trans h.contents_eq
      have hnext := serving_after hE .write (lba+1) k
        (x := y.store lba b) hfail (by change y.size ≤ 2^28; rw [hsize]; exact h.size)
      obtain ⟨hres,hend⟩ := ih (i := i+1) hnext
      have hstore : (y.store lba b).size = x.size := hsize
      rw [contents_store,hstore,hcont,hb] at hres hend
      rw [hloop,run_write_accepted h.size x.contents hlt]
      exact ⟨hres,hend.ready,hend.size.trans hstore,hend.contents⟩
    · obtain ⟨hw,hready,hcore⟩ := h.refused hlt
      have hloop : writeLoop (ports E) buf (k+1) i d = (false,(ataWaitDrq (ports E) d).2) := by simp [writeLoop,hw]
      rw [hloop,run_write_refused x.contents hlt]
      exact ⟨rfl,hready,(congrArg AtaDrive.size hcore :).trans h.size_eq,(core_contents hcore).trans h.contents_eq⟩

/-! ## Calls -/

theorem lba_select (lba : UInt32) (count : UInt8) (d : AtaDrive) : (d.select lba count).lba = lba.toNat % 2^28 := by
  have hlow : (lba &&& 0xFF).toUInt8.toNat = lba.toNat % 2^8 := by
    have hm : (0xFF : UInt32).toNat = 2^8-1 := rfl
    rw [UInt32.toNat_toUInt8,UInt32.toNat_and,hm,Nat.and_two_pow_sub_one_eq_mod,Nat.mod_mod]
  have hmid := byte_field lba 8 (by decide)
  have hhigh := byte_field lba 16 (by decide)
  have hhead := head_field lba
  unfold AtaDrive.lba AtaDrive.select
  dsimp only
  rw [hlow,hmid,hhigh,hhead]
  change lba.toNat % 2^8+2^8*(lba.toNat/2^8 % 2^8)+2^16*(lba.toNat/2^16 % 2^8)+2^24*(lba.toNat/2^24 % 16) = _
  omega

theorem issue_eq {d : AtaDrive} (hb : d.busy = 0) (lba : UInt32) (count cmd : UInt8) :
    issue (ports E) lba count cmd d = (d.select lba count).command E cmd := by
  simp [issue,ports,outb,hb,select,ataDriveHead,ataSectCount,ataLbaLow,ataLbaMid,ataLbaHigh,ataStatus]

theorem serving_issue (hE : E.Prompt) {d : AtaDrive} (hb : d.busy = 0) (hs : d.size ≤ 2^28) {lba : UInt32} {count : UInt8}
    (hlba : lba.toNat < 2^28) (hc : count ≠ 0) (cmd : UInt8) {mk : ℕ → ℕ → ℕ → Transfer}
    (hcmd : ∀ x : AtaDrive, x.command E cmd = ({ x with failed := false } : AtaDrive).advance E mk x.lba x.sectors) :
    Serving E mk lba.toNat count.toNat (d.begun lba count) (issue (ports E) lba count cmd d) := by
  have hl : (d.select lba count).lba = lba.toNat := by rw [lba_select,Nat.mod_eq_of_lt hlba]
  have hn : (d.select lba count).sectors = count.toNat := if_neg hc
  have heq : issue (ports E) lba count cmd d = (d.begun lba count).advance E mk lba.toNat count.toNat := by
    rw [issue_eq hb,hcmd,hl,hn]
    rfl
  exact ⟨congrArg AtaDrive.core heq,by rw [heq]; exact advance_busy hE mk _ _ _,rfl,hs⟩

theorem begun_fields (lba : UInt32) (count : UInt8) (d : AtaDrive) :
    (d.begun lba count).size = d.size ∧ (d.begun lba count).contents = d.contents := ⟨rfl,rfl⟩

theorem ataReadSectors_spec (hE : E.Prompt) {d : AtaDrive} (hd : Ready d) {lba : UInt32} (hlba : lba.toNat < 2^28)
    (count : UInt8) :
    let r := run (drive d.size) (VesperFs.ataReadSectors lba.toNat count.toNat) d.contents
    delivered count.toNat (AtaPorts.ataReadSectors (ports E) lba count d).1 = r.1 ∧
      Ended d (AtaPorts.ataReadSectors (ports E) lba count d).2 r.2 := by
  by_cases hc : count = 0
  · subst hc
    exact ⟨rfl,hd,rfl,rfl⟩
  · obtain ⟨hw,hcore,hbusy⟩ := wait_not_busy (E := E) hd.busy
    simp only [AtaPorts.ataReadSectors,hc,if_false,hw,if_true]
    generalize (ataWaitNotBusy (ports E) d).2 = y at hcore hbusy
    have hsize : y.size = d.size := (congrArg AtaDrive.size hcore :)
    have hserve := serving_issue hE hbusy (by rw [hsize]; exact hd.size) hlba hc ataCmdRead
      (fun x => (rfl : x.command E ataCmdRead = ({ x with failed := false } : AtaDrive).advance E .read x.lba x.sectors))
    obtain ⟨hres,hend⟩ := readLoop_spec hE hserve
    rw [(begun_fields lba count y).1,(begun_fields lba count y).2,hsize,core_contents hcore] at hres hend
    exact ⟨hres,hend.ready,hend.size.trans hsize,hend.contents⟩

theorem ataWriteSectors_spec (hE : E.Prompt) {d : AtaDrive} (hd : Ready d) {lba : UInt32} (hlba : lba.toNat < 2^28)
    (count : UInt8) (buf : ℕ → UInt16) :
    let r := run (drive d.size) (VesperFs.ataWriteSectors lba.toNat (bufferSectors buf 0 count.toNat)) d.contents
    (AtaPorts.ataWriteSectors (ports E) lba count buf d).1 = r.1 ∧ Ended d (AtaPorts.ataWriteSectors (ports E) lba count buf d).2 r.2 := by
  by_cases hc : count = 0
  · subst hc
    exact ⟨rfl,hd,rfl,rfl⟩
  · obtain ⟨hw,hcore,hbusy⟩ := wait_not_busy (E := E) hd.busy
    simp only [AtaPorts.ataWriteSectors,hc,if_false,hw,if_true]
    generalize (ataWaitNotBusy (ports E) d).2 = y at hcore hbusy
    have hsize : y.size = d.size := (congrArg AtaDrive.size hcore :)
    have hserve := serving_issue hE hbusy (by rw [hsize]; exact hd.size) hlba hc ataCmdWrite
      (fun x => (rfl : x.command E ataCmdWrite = ({ x with failed := false } : AtaDrive).advance E .write x.lba x.sectors))
    obtain ⟨hres,hend⟩ := writeLoop_spec hE buf (i := 0) hserve
    rw [(begun_fields lba count y).1,(begun_fields lba count y).2,hsize,core_contents hcore] at hres hend
    exact ⟨hres,hend.ready,hend.size.trans hsize,hend.contents⟩

/-! ## Identification -/

theorem identify_words {d : AtaDrive} {w n : ℕ} (hb : d.busy = 0) (ht : d.transfer = .identify w) (hn : w+(n+1) = 256) :
    (readWords (ports E) ataData (n+1) d).2 = d.start E .idle := by
  induction n generalizing d w with
  | zero =>
    obtain rfl : w = 255 := by omega
    simp [readWords,ports,inw,hb,ht]
  | succ n ih =>
    have hin : ((ports E).inw ataData d).2 = { d with transfer := .identify (w+1) } := by
      simp [ports,inw,hb,ht,show w ≠ 255 by omega]
    have hrest := ih (d := { d with transfer := .identify (w+1) }) hb rfl (by omega)
    rw [readWords,hin,hrest]
    rfl

theorem status_waiting {d : AtaDrive} (ht : d.transfer ≠ .idle) : d.status E ≠ 0 := by
  intro h0
  rcases Nat.eq_zero_or_pos d.busy with hb | hb
  · obtain ⟨-,-,hdrq⟩ := status_free (E := E) hb
    rw [h0,UInt8.zero_and] at hdrq
    revert ht hdrq
    cases d.transfer <;> simp [drqFlag,ataSrDrq]
  · apply (status_busy (E := E) hb).1
    rw [h0,UInt8.zero_and]

/-- What `ata_init` does after the command: the drive answers, its signature is that of a disk, and its identity is
read and dropped. -/
theorem identified (hE : E.Prompt) {z : AtaDrive} (hb : z.busy < pollLimit) (ht : z.transfer = .identify 0)
    (hf : z.failed = false) (hm : z.lbaMid = 0) (hh : z.lbaHigh = 0) (hs : z.size ≤ 2^28) :
    (identify (ports E) z).1 = true ∧ Ended z (identify (ports E) z).2 z.contents := by
  have hstatus : (ports E).inb ataStatus z = (z.status E,z.tick) := rfl
  have hne := status_waiting (E := E) (d := z) (by rw [ht]; exact Transfer.noConfusion)
  obtain ⟨hw,hcore,hbusy⟩ := wait_not_busy (E := E) (d := z.tick) ((Nat.sub_le _ _).trans_lt hb)
  unfold identify
  simp only [hstatus,hne,if_false,hw,if_true]
  generalize (ataWaitNotBusy (ports E) z.tick).2 = y at hcore hbusy
  have hmid : (ports E).inb ataLbaMid y = (0,y) := by
    have h : y.lbaMid = z.lbaMid := (congrArg AtaDrive.lbaMid hcore :)
    rw [← hm,← h]
    rfl
  have hhigh : (ports E).inb ataLbaHigh y = (0,y) := by
    have h : y.lbaHigh = z.lbaHigh := (congrArg AtaDrive.lbaHigh hcore :)
    rw [← hh,← h]
    rfl
  have hyt : y.transfer = .identify 0 := (congrArg AtaDrive.transfer hcore :).trans ht
  have hyf : y.failed = false := (congrArg AtaDrive.failed hcore :).trans hf
  obtain ⟨hd,hdcore,hdbusy⟩ := wait_drq (E := E) (d := y) (by rw [hbusy]; decide)
    (Or.inr (by rw [hyt]; exact Transfer.noConfusion))
  simp only [hmid,hhigh,ne_eq,not_true_eq_false,if_false,hd,hyf,Bool.not_false,if_true]
  generalize (ataWaitDrq (ports E) y).2 = v at hdcore hdbusy
  have hvt : v.transfer = .identify 0 := (congrArg AtaDrive.transfer hdcore :).trans hyt
  have hvs : v.size = z.size := (congrArg AtaDrive.size (hdcore.trans hcore) :)
  rw [identify_words hdbusy hvt (by omega)]
  refine ⟨True.intro,⟨rfl,hE _,?_⟩,hvs,core_contents (d := z) (s := v) (hdcore.trans hcore)⟩
  change v.size ≤ 2^28
  rw [hvs]
  exact hs

/-- A drive that is there is found, and its disk is not touched. -/
theorem ataInit_spec (hE : E.Prompt) {d : AtaDrive} (hb : d.busy = 0) (hs : d.size ≤ 2^28) :
    (ataInit (ports E) d).1 = true ∧ Ended d (ataInit (ports E) d).2 d.contents := by
  unfold ataInit
  have hsel : (ports E).outb ataDriveHead 0xE0 d = { d with driveHead := 0xE0 } := by
    simp [ports,outb,hb,ataDriveHead,ataSectCount,ataLbaLow,ataLbaMid,ataLbaHigh]
  obtain ⟨hcore,hbusy⟩ := delay_core (E := E) 4 { d with driveHead := 0xE0 }
  rw [hsel]
  unfold ataDelay400ns
  generalize skip (ports E) ataAltStatus 4 { d with driveHead := 0xE0 } = y at hcore hbusy
  have hy : y.busy = 0 := by
    change y.busy ≤ d.busy at hbusy
    omega
  have hident : (ports E).outb ataStatus ataCmdIdent ((ports E).outb ataLbaHigh 0 ((ports E).outb ataLbaMid 0
      ((ports E).outb ataLbaLow 0 ((ports E).outb ataSectCount 0 y)))) =
      ({ y with count := 0, lbaLow := 0, lbaMid := 0, lbaHigh := 0, failed := false } : AtaDrive).start E (.identify 0) := by
    simp [ports,outb,hy,ataSectCount,ataLbaLow,ataLbaMid,ataLbaHigh,ataDriveHead,ataStatus,command,ataCmdIdent,
      ataCmdRead,ataCmdWrite]
  have hcont : y.contents = d.contents := core_contents (d := { d with driveHead := 0xE0 }) hcore
  have hsize : y.size = d.size := (congrArg AtaDrive.size hcore :)
  simp only [hident]
  have hz : (({ y with count := 0, lbaLow := 0, lbaMid := 0, lbaHigh := 0, failed := false } : AtaDrive).start E
      (.identify 0)).size ≤ 2^28 := by
    change y.size ≤ 2^28
    rw [hsize]
    exact hs
  obtain ⟨hres,hend⟩ := identified hE (hE _) rfl rfl rfl rfl hz
  exact ⟨hres,hend.ready,hend.size.trans hsize,hend.contents.trans hcont⟩

end VesperOS.PortTransfers
