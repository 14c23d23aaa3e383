import VesperOS.Process.SwitchRefinement

/-! # Ring 3 and preemption

A user process begins on the words that `user_mode_enter` builds on its kernel stack. From then on it enters the
kernel by interrupts, and another process may run before an interrupt returns.
-/
namespace VesperOS.RingSwitch
open ByteMemory StackMachine ProcessTable SwitchCode ResumedContexts TrapFrames

/-! ## Ring 3 -/

/-- `user_mode_enter` up to IRET. -/
def userModeEnter (L : Layout) : List Instr :=
  [.load .eax (.abs (UInt32.ofNat L.current)),.movLow .eax 0x23,.movSeg .ds .eax,.movSeg .es .eax,.movSeg .fs .eax,
    .movSeg .gs .eax,.load .eax (.abs (UInt32.ofNat L.current)),.pushImm 0x23,.pushMem (.rel .eax 24),.pushf,
    .orTop 0x200,.pushImm 0x1B,.pushMem (.rel .eax 20)]

/-- The five words of an IRET to ring 3. -/
theorem execThread_iretFrame {L : Layout} {i : Slot} {t : Thread} (hlimit : t.limit = L.limit (some i))
    (htop : t.top = L.top (some i)) (hst : t.stack = []) (heax : t.gp .eax = L.pointer (some i)) :
    execThread [.pushImm 0x23,.pushMem (.rel .eax 24),.pushf,.orTop 0x200,.pushImm 0x1B,.pushMem (.rel .eax 20)] t =
      some { t with stack := [word t.heap (L.slot i+20),0x1B,t.eflags ||| 0x200,word t.heap (L.slot i+24),0x23] } := by
  obtain ⟨file,limit,top,stack,heap⟩ := t
  dsimp only at hlimit htop hst heax ⊢
  subst hlimit htop hst
  have hlt := L.slot_lt i
  have haddr {off : UInt32} (hoff : off.toNat < 60) : (Addr.eval file (.rel .eax off)).toNat = L.slot i+off.toNat := by
    rw [Addr.eval,heax,UInt32.toNat_add,L.pointer_toNat,Nat.mod_eq_of_lt (by omega)]
  have hroom (n : ℕ) (hn : n ≤ 5) : L.limit (some i)+4*n ≤ L.top (some i) := by
    change L.slot i+60+4*n ≤ L.slot i+8252
    omega
  have hapart {off : UInt32} (hoff : off.toNat+4 ≤ 60) (st : List UInt32) :
      Thread.apart ⟨file,L.limit (some i),L.top (some i),st,heap⟩ (Addr.eval file (.rel .eax off)) := by
    left
    rw [haddr (by omega)]
    change L.slot i+off.toNat+4 ≤ L.slot i+60
    omega
  have hesp : word heap (Addr.eval file (.rel .eax 24)).toNat = word heap (L.slot i+24) := by rw [haddr (by decide)]; rfl
  have heip : word heap (Addr.eval file (.rel .eax 20)).toNat = word heap (L.slot i+20) := by rw [haddr (by decide)]; rfl
  refine (execThread_pushWord 0x23 rfl (hroom 1 (by decide))).trans ?_
  refine (execThread_pushMem (hapart (by decide) [0x23]) (hroom 2 (by decide))).trans ?_
  refine (execThread_pushWord file.eflags rfl (hroom 3 (by decide))).trans ?_
  refine (execThread_orTop rfl).trans ?_
  refine (execThread_pushWord 0x1B rfl (hroom 4 (by decide))).trans ?_
  refine (execThread_pushMem (hapart (by decide)
    [0x1B,file.eflags ||| 0x200,word heap (Addr.eval file (.rel .eax 24)).toNat,0x23]) (hroom 5 (by decide))).trans ?_
  dsimp only
  rw [hesp,heip]
  rfl

theorem execThread_userModeEnter {L : Layout} {i : Slot} {t : Thread} (hlimit : t.limit = L.limit (some i))
    (htop : t.top = L.top (some i)) (hst : t.stack = []) (hcur : word t.heap L.current = L.pointer (some i)) :
    ∃ f : File, (∀ s, f.seg s = 0x23) ∧ (∀ r ≠ .eax, f.gp r = t.gp r) ∧ f.gp .eax = L.pointer (some i) ∧
      execThread (userModeEnter L) t = some { t with
        file := f, stack := [word t.heap (L.slot i+20),0x1B,t.eflags ||| 0x200,word t.heap (L.slot i+24),0x23] } := by
  have hcurrent := L.current_toNat
  have hapart := L.current_apart_stack (some i)
  have hload (f : File) : Thread.apart { t with file := f } (UInt32.ofNat L.current) := by
    unfold Thread.apart
    rw [hcurrent,hlimit,htop]
    exact hapart
  obtain ⟨f,_,hfl,hgp,hseg,hrun⟩ := execThread_dataSegments 0x23 { t with file := t.file.set .eax (L.pointer (some i)) }
  have hcode : userModeEnter L = Instr.load .eax (.abs (UInt32.ofNat L.current)) ::
      List.append [.movLow .eax 0x23,.movSeg .ds .eax,.movSeg .es .eax,.movSeg .fs .eax,.movSeg .gs .eax]
        (.load .eax (.abs (UInt32.ofNat L.current)) ::
          [.pushImm 0x23,.pushMem (.rel .eax 24),.pushf,.orTop 0x200,.pushImm 0x1B,.pushMem (.rel .eax 20)]) := rfl
  refine ⟨f.set .eax (L.pointer (some i)),?_,fun r hr => ?_,?_,?_⟩
  · exact hseg
  · rw [File.set_gp_of_ne hr,hgp r hr]
    exact File.set_gp_of_ne hr _ _
  · exact File.set_gp_self .eax _ f
  · rw [hcode,execThread_load (hload t.file),List.append_eq,execThread_append]
    dsimp only [Addr.eval]
    rw [hcurrent,hcur,hrun,Option.bind_some,execThread_load (hload f)]
    dsimp only [Addr.eval]
    rw [hcurrent,hcur]
    have hframe := execThread_iretFrame (t := { t with file := f.set .eax (L.pointer (some i)) }) hlimit htop hst
      (File.set_gp_self ..)
    rw [hframe]
    dsimp only [File.set]
    rw [hfl]
    rfl

theorem carried_create {L : Layout} {o : Option Slot} {s : Core} (h : Inv L o s) (p : NewProcess) {i : Slot}
    (hi : allocSlot L s.mem = some i) : Carried L i (L.slot i+8232) [0,0,0,0,p.retAddr] (createProc L p i s.mem) o
      { s with mem := createProc L p i s.mem } := by
  have hframe := createProc_frame L p i s.mem
  have hne : o ≠ some i := fun he => h.own i he (allocSlot_unused hi)
  refine ⟨(h.create hi).1,?_,fun _ _ _ => rfl,fun _ => ?_,fun he => absurd he hne⟩
  · dsimp only
    rw [(createProc_fields L p i s.mem).1]
    decide
  · exact ⟨hframe.1,(L.initial_frame i).1,(L.initial_frame i).2,hframe.2,fun _ _ _ => rfl⟩

/-- The first turn of a process; a user process begins it in `user_mode_enter`. -/
theorem created_starts {L : Layout} {i : Slot} {s₀ s : Core} {p : NewProcess} (hr : Reachable L s₀)
    (hi : allocSlot L s₀.mem = some i) (hw : Without L i { s₀ with mem := createProc L p i s₀.mem } s)
    (hcur : word s.mem L.current = L.pointer (some i)) :
    s.eip = p.retAddr ∧ s.esp.toNat = L.top (some i) ∧ (∀ r ∈ [Reg.ebx,.esi,.edi,.ebp], s.gp r = 0) ∧
      s.esp0 = UInt32.ofNat (L.top (some i)) ∧
      iret (exec (userModeEnter L) s.cpu) = ⟨Function.update s.gp .eax (L.pointer (some i)),fun _ => 0x23,p.userEsp,0x23,
        p.userEip,0x1B,s.eflags ||| 0x200⟩ := by
  obtain ⟨o,hinv⟩ := hr.inv
  obtain ⟨o',hafter⟩ := (carried_create hinv p hi).without rfl hw
  obtain rfl := hafter.inv.unique hcur
  have hback := hafter.resumed rfl
  obtain ⟨heip,hregs⟩ := @frame_registers s ⟨⟨⟨fun _ => 0,s.seg,s.ss,s.eflags,s.zf⟩,s.esp,s.mem⟩,p.retAddr,0,0⟩
    hback.frame
  have hesp : s.esp.toNat = L.top (some i) := hback.esp
  have hfield {off : ℕ} (h1 : 12 ≤ off) (h2 : off+4 ≤ 28) :
      word s.mem (L.slot i+off) = word (createProc L p i s₀.mem) (L.slot i+off) :=
    word_congr fun x hx1 hx2 => hafter.fields x (by omega) (by omega)
  have hnew := createProc_fields L p i s₀.mem
  have hstart : Follows s.cpu ⟨s.file,L.limit (some i),L.top (some i),[],s.mem⟩ :=
    ⟨rfl,hesp,(L.limit_le_top (some i)).trans hesp.ge,hesp ▸ s.esp.toNat_lt,nofun,fun _ _ => rfl⟩
  obtain ⟨f,hseg,hgp,heax,hrun⟩ := execThread_userModeEnter (t := ⟨s.file,L.limit (some i),L.top (some i),[],s.mem⟩)
    rfl rfl rfl hcur
  have hend := hstart.exec hrun
  have hfile : (exec (userModeEnter L) s.cpu).file = f := hend.file
  refine ⟨heip,hesp,hregs,hback.esp0,?_⟩
  · dsimp only at hend
    rw [hfield (by decide) (by decide),hfield (by decide) (by decide),hnew.2.2.2.1,hnew.2.2.2.2] at hend
    have huser : (0x1B : UInt16) &&& 3 = 3 := by decide
    have houter : Context.outer ⟨f.gp,f.seg,p.userEsp,0x23,p.userEip,0x1B,s.eflags ||| 0x200⟩ = [p.userEsp,0x23] :=
      if_pos (decide_eq_true huser)
    have hiret := Context.iret_outer ⟨f.gp,f.seg,p.userEsp,0x23,p.userEip,0x1B,s.eflags ||| 0x200⟩ hend (by
      rw [houter]
      rfl) (Or.inl (decide_eq_true huser)) (Or.inl (decide_eq_true huser))
    rw [hiret,hfile]
    congr 1
    · funext r
      by_cases hr : r = .eax
      · rw [hr,heax,Function.update_self]
      · rw [hgp r hr,Function.update_of_ne hr]
    · funext g
      exact hseg g

/-- The first user process gets its turn after the idle process. -/
theorem created_starts_first : ∃ s₀ s : Core, Reachable sampleTable s₀ ∧ word s.mem sampleTable.current = sampleTable.pointer (some 1) ∧
    iret (exec (userModeEnter sampleTable) s.cpu) = ⟨Function.update s.gp .eax (sampleTable.pointer (some 1)),
      fun _ => 0x23,0xBFFFF000,0x23,0x400100,0x1B,s.eflags ||| 0x200⟩ := by
  obtain ⟨p,hp⟩ : ∃ p : NewProcess, p = ⟨1,0x20000,0x400100,0xBFFFF000,fun _ => 0,0x1500⟩ := ⟨_,rfl⟩
  have hK : sampleTable.kernelPd.toNat = SpaceLifecycle.sampleLayout.pageDirectory := rfl
  have hboot := SwitchRefinement.roomy_boot
  have halloc : allocSlot sampleTable bootCore.mem = some 1 :=
    (SwitchRefinement.allocSlot_refines hboot.toRefines).trans rfl
  have h₀ := hboot.create le_rfl p true 0x400100 0xBFFFF000 0x20000 (by rw [hp]; rfl)
  have hmem : SwitchRefinement.create sampleTable p bootCore.mem = createProc sampleTable p 1 bootCore.mem := by
    rw [SwitchRefinement.create,halloc]
  rw [hmem] at h₀
  generalize hk₀ : (ProcessTable.createProc true 0x400100 0xBFFFF000 0x20000 (ProcessTable.processInit
    SpaceLifecycle.sampleLayout Exec.bootedKernel.mach Exec.bootedKernel.table)).2 = k₀ at h₀
  have hcur₀ : k₀.current = none := by rw [← hk₀]; rfl
  -- the boot context yields to the idle process, and that to the new one
  obtain ⟨s₁,-,hstep₁,h₁⟩ := h₀.yield hK (by decide)
  generalize hk₁ : processYield SpaceLifecycle.sampleLayout k₀ = k₁ at h₁
  have hcur₁ : k₁.current = some 0 := by rw [← hk₁,← hk₀]; rfl
  obtain ⟨s₂,-,hstep₂,h₂⟩ := h₁.yield hK (by decide)
  have hcur₂ : (processYield SpaceLifecycle.sampleLayout k₁).current = some 1 := by rw [← hk₁,← hk₀]; rfl
  have hwithout : Without sampleTable 1 { bootCore with mem := createProc sampleTable p 1 bootCore.mem } s₂ :=
    .step (.step .refl (h₀.not_current (by rw [hcur₀]; decide)) hstep₁) (h₁.not_current (by rw [hcur₁]; decide)) hstep₂
  have hturn : word s₂.mem sampleTable.current = sampleTable.pointer (some 1) := by rw [h₂.inv.current,hcur₂]
  have hstarts := created_starts bootCore_reachable halloc hwithout hturn
  refine ⟨bootCore,s₂,bootCore_reachable,hturn,?_⟩
  rw [hp] at hstarts
  exact hstarts.2.2.2.2

/-! ## Preemption -/

/-- A frame that the handler leaves alone is what the exit code needs. -/
theorem returns_of_frame {c c' : Cpu} {t : Thread} (hf : Follows c t) (hlen : 13 ≤ t.stack.length) (hesp : c'.esp = c.esp)
    (hss : c'.ss = c.ss) (hmem : ∀ a, c.esp.toNat+4 ≤ a → a < t.top → c'.mem a = c.mem a) :
    Returns c c' (t.stack.getD 12 0) t.stack.length := by
  have hend := hf.esp
  have htop := hf.top_lt
  have hpeek {k : ℕ} (h1 : 1 ≤ k) (h2 : k < t.stack.length) : c'.peek k = c.peek k := by
    have haddr : (c.esp+4*UInt32.ofNat k).toNat = c.esp.toNat+4*k := by
      simp only [UInt32.toNat_add,UInt32.toNat_mul,UInt32.toNat_ofNat,UInt32.toNat_ofNat']
      omega
    unfold Cpu.peek
    rw [hesp,haddr]
    exact word_congr fun x hx1 hx2 => hmem x (by omega) (by omega)
  exact ⟨hesp,hss,fun k h1 h2 _ => hpeek h1 h2,(hpeek (by decide) hlen).trans (hf.peek hlen)⟩

/-- An interrupt in whose handler another context is switched to, and back. -/
theorem preempted_resumes {L : Layout} {i : Slot} {v : ℕ} {stubCode : List Instr} (hv : stub v = some stubCode) (x : Context)
    {error : List UInt32} (he : error.length = if v ∈ errorVectors then 1 else 0) (ss0 : UInt16) (esp0 : UInt32) {m : Mem}
    (hroom : L.limit (some i)+80 ≤ (x.entryEsp esp0).toNat) (htop : (x.entryEsp esp0).toNat ≤ L.top (some i))
    {c c' : Cpu} (hc : c = enter stubCode ss0 esp0 error x m) {s₀ s₁ s : Core} (hr : Reachable L s₀)
    (hcur₀ : word s₀.mem L.current = L.pointer (some i)) (hroom₀ : L.limit (some i)+28 ≤ s₀.esp.toNat)
    (hbelow : s₀.esp.toNat ≤ c.esp.toNat) (hss₀ : s₀.ss = c.ss)
    (hframe₀ : ∀ a, c.esp.toNat+4 ≤ a → a < (x.entryEsp esp0).toNat → s₀.mem a = c.mem a)
    (hy : Yield L (L.limit (some i)) s₀ s₁) (hw : Without L i s₁ s) (hcur : word s.mem L.current = L.pointer (some i))
    (hesp : c'.esp = c.esp) (hss : c'.ss = s.ss)
    (hframe : ∀ a, c.esp.toNat+4 ≤ a → a < (x.entryEsp esp0).toNat → c'.mem a = s.mem a) :
    iret (exec restoreCode c') = x := by
  obtain ⟨hback,hsame⟩ := resumed_of_yield hr hcur₀ hroom₀ hy hw hcur
  obtain ⟨words,hwords⟩ : ∃ ws, ws = (x.registers v error
      (UInt32.ofNat ((x.entryEsp esp0).toNat-4*(x.outer.length+5)))).words++x.outer := ⟨_,rfl⟩
  obtain ⟨f,hfss,-,-,hf⟩ := x.entered hv he ss0 esp0 m hroom hwords
  rw [← hc] at hf
  have hlen : words.length = 17+x.outer.length := by rw [hwords,List.length_append]; rfl
  have hcss : x.fromUser ∨ c.ss = x.ss := (x.fromUser_false_ss ss0).imp_right fun h => by
    rw [← h,← hfss]
    exact congrArg File.ss hf.file
  have hret := returns_of_frame hf (by rw [List.length_cons]; omega) hesp (hss.trans (hsame.trans hss₀)) fun a h1 h2 => by
    dsimp only at h2
    rw [hframe a h1 h2,hback.above a (by omega) (by omega),hframe₀ a h1 h2]
  rw [List.length_cons,hlen,hwords,show 17+x.outer.length+1 = 18+x.outer.length by ring] at hret
  rw [hwords] at hf
  rw [x.left hf rfl hcss (x.fromUser_false_esp esp0) hret]
  congr 1
  exact Function.update_eq_self ..

/-- Words on the own stack. -/
theorem elsewhere_of_follows {L : Layout} {i : Slot} {s : Core} {t : Thread} {c : Cpu} (hinv : Inv L (some i) s)
    (hf : Follows c t) (hlimit : t.limit = L.limit (some i)) (htop : t.top ≤ L.top (some i)) (hheap : t.heap = s.mem)
    (hss : c.ss = s.ss) (eip : UInt32) : SwitchRefinement.Elsewhere L (some i) s ⟨c,eip,s.cr3,s.esp0⟩ := by
  have hesp := hf.esp
  have hlow := hf.low
  have hmem (a : ℕ) (ha : a < L.limit (some i) ∨ L.top (some i) ≤ a) : c.mem a = s.mem a := by
    rw [hf.heap a (by omega),hheap]
  have hfield (j : Slot) (a : ℕ) (h1 : L.slot j ≤ a) (h2 : a < L.slot j+60) : c.mem a = s.mem a := by
    have hapart := L.fields_apart_stack (some i) j
    exact hmem a (by omega)
  have hword (j : Slot) {off : ℕ} (hoff : off+4 ≤ 60) : word c.mem (L.slot j+off) = word s.mem (L.slot j+off) :=
    word_congr fun x h1 h2 => hfield j x (by omega) (by omega)
  have hcurrent := L.current_apart_stack (some i)
  have hnextPid := L.nextPid_apart_stack (some i)
  refine ⟨⟨word_congr fun x h1 h2 => hmem x (by omega),hss,hlimit ▸ hlow,?_,fun j => Eq.congr_left (hword j (by decide)),
    fun j _ a h1 h2 => hfield j a (by omega) (by omega),fun j _ _ => hword j (show 0+4 ≤ 60 by decide),
    fun j hj hused a h1 h2 => ?_⟩,fun j a h1 h2 => hfield j a (by omega) (by omega),
    word_congr fun x h1 h2 => hmem x (by omega),rfl,rfl⟩
  · dsimp only
    omega
  · have hsaved := (hinv.saved j hj hused).1
    have hapart := L.stacks_apart hj
    exact hmem a (by omega)

/-- The timer stops the idle process; another process runs and yields before IRET. -/
theorem preempted_resumes_afterOther : ∃ (x : Context) (m : Mem) (s₀ s₁ s : Core), Reachable sampleTable s₀ ∧
    s₀.cpu = enter [.pushImm 0,.pushImm 32] 0x10 0 [] x m ∧ Yield sampleTable (sampleTable.limit (some 0)) s₀ s₁ ∧
    word s₁.mem sampleTable.current = sampleTable.pointer (some 1) ∧
    Yield sampleTable (sampleTable.limit (some 1)) s₁ s ∧ iret (exec restoreCode s.cpu) = x := by
  have hK : sampleTable.kernelPd.toNat = SpaceLifecycle.sampleLayout.pageDirectory := rfl
  obtain ⟨r,-,hr⟩ := SwitchRefinement.roomy_boot.execution hK (by decide) le_rfl [.create,.yield] (by simp)
  generalize hk : Scheduler.run SpaceLifecycle.sampleLayout (ProcessTable.processInit SpaceLifecycle.sampleLayout
    Exec.bootedKernel.mach Exec.bootedKernel.table) [.create,.yield] = k at hr
  have hcur : k.current = some 0 := by rw [← hk]; rfl
  have hresp : sampleTable.limit (some 0)+8192 ≤ r.esp.toNat := hcur ▸ hr.room
  have hinv : Inv sampleTable (some 0) r := hcur ▸ hr.inv
  obtain ⟨x,hx⟩ : ∃ x : Context, x = ⟨fun _ => 7,fun _ => 0x10,r.esp,r.ss,0x1300,0x08,0x202⟩ := ⟨_,rfl⟩
  have huser : ¬x.fromUser = true := by
    rw [hx]
    change ¬decide ((0x08 : UInt16) &&& 3 = 3) = true
    decide
  have hentry : x.entryEsp 0 = r.esp := by
    rw [Context.entryEsp,if_neg huser,hx]
  have houter : x.outer = [] := if_neg huser
  obtain ⟨words,hw⟩ : ∃ ws, ws = (x.registers 32 [] (UInt32.ofNat ((x.entryEsp 0).toNat-4*(x.outer.length+5)))).words++x.outer :=
    ⟨_,rfl⟩
  have hroom : sampleTable.limit (some 0)+80 ≤ (x.entryEsp 0).toNat := by
    rw [hentry]
    exact (Nat.add_le_add_left (by decide) _).trans hresp
  have htop : (x.entryEsp 0).toNat ≤ sampleTable.top (some 0) := by
    rw [hentry]
    exact hinv.high
  have hv : stub 32 = some [.pushImm 0,.pushImm 32] := rfl
  obtain ⟨f,hfss,-,-,hf⟩ := x.entered hv rfl 0x10 0 r.mem hroom hw
  generalize hc : enter [.pushImm 0,.pushImm 32] 0x10 0 [] x r.mem = c at hf
  have hcss : c.ss = r.ss := by
    rw [hf.file]
    dsimp only
    rw [hfss,Context.entryFile,if_neg huser,hx]
  have hcesp : c.esp.toNat+72 = r.esp.toNat := by
    have hlen : words.length = 17 := by
      rw [hw,houter,List.append_nil]
      rfl
    have hend := hf.esp
    rw [List.length_cons,hlen,hentry] at hend
    exact hend
  -- the handler, about to yield
  obtain ⟨s₀,hs₀⟩ : ∃ s : Core, ⟨c,0x1400,r.cr3,r.esp0⟩ = s := ⟨_,rfl⟩
  have hcpu : s₀.cpu = c := by rw [← hs₀]
  have helse := elsewhere_of_follows hinv hf rfl htop rfl hcss 0x1400
  rw [hs₀] at helse
  have h₀ : SwitchRefinement.Roomy sampleTable 28 k s₀ := by
    refine ⟨hr.toRefines.elsewhere (hcur ▸ helse),hr.reachable.step (.run hinv.current helse.toRuns),?_,fun i hi hused => ?_⟩
    · rw [hcur,hcpu]
      generalize sampleTable.limit (some 0) = low at hresp
      omega
    · rw [hcur] at hi
      have hwas : sampleTable.state r.mem i ≠ 0 := fun h0 => hused ((helse.used i).mpr h0)
      have hsaved := hr.saved i (hcur ▸ hi) hwas
      rw [helse.esps i hi hwas]
      omega
  obtain ⟨s₁,hy₁,-,h₁⟩ := h₀.yield hK le_rfl
  generalize hk₁ : processYield SpaceLifecycle.sampleLayout k = k₁ at h₁
  have hcur₁ : k₁.current = some 1 := by rw [← hk₁,← hk]; rfl
  obtain ⟨s,hy,hstep,h⟩ := h₁.yield hK le_rfl
  have hturn : word s.mem sampleTable.current = sampleTable.pointer (some 0) := by
    rw [h.inv.current,← hk₁,← hk]
    rfl
  have hother : Without sampleTable 0 s₁ s := .step .refl (h₁.not_current (by rw [hcur₁]; decide)) hstep
  have hcur₀ := h₀.inv.current
  have hroom₀ := h₀.room
  rw [hcur] at hcur₀ hroom₀ hy₁
  rw [hcur₁] at hy
  have hesp := (yield_resumes h₀.reachable hcur₀ hroom₀ hy₁ hother hturn).2.1
  refine ⟨x,r.mem,s₀,s₁,s,h₀.reachable,hcpu.trans hc.symm,hy₁,h₁.inv.current.trans (congrArg _ hcur₁),hy,?_⟩
  exact preempted_resumes hv x rfl 0x10 0 hroom htop hc.symm h₀.reachable hcur₀ hroom₀ (by rw [hcpu]) (by rw [hcpu])
    (fun a _ _ => by rw [hcpu]) hy₁ hother hturn (hesp.trans (by rw [hcpu])) rfl fun _ _ _ => rfl

end VesperOS.RingSwitch
