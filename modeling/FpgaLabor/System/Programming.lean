import FpgaLabor.Hls.Decimation
import FpgaLabor.Host.FirDriver
import FpgaLabor.Rtl.FirHwRuns

/-!
# The core as `FIR_init` programs it

The generated core with its register file, and the driver at the other end of the bus. Whatever has been
written before and whatever calls are under way, once the accesses of `FIR_init` have taken effect and as long
as nothing is written after them, every call that begins runs with the shipped filter, and the words that
leave the core are those of the filter on the samples, for every third pair of samples (`fir_programmed`).
-/

namespace FpgaLabor

open CallTrace (empty)
open Elapsed (elapsed Triggered elapsed_succ_of_mark elapsed_succ_of_not_mark)
open FirHwRtl (stepTraced samplesOf acceptedPair)

namespace FirHwRtl

/-- The accesses that take effect in a cycle. -/
def committed (p : FirHwRtl × CallTrace FirHwArgs AxisType) (i : FirCycle) : List Access :=
  p.1.control.commit (p.1.controlIn i)

/-- What the core has stored of its bus. -/
def registerFile (s : FirHwRtl) : RegisterFile := s.control.registerFile

section Registers

variable {s : FirHwRtl} {t : CallTrace FirHwArgs AxisType} {i : FirCycle}

theorem aReset_controlIn (hrst : i.apRstN = true) : (s.controlIn i).aReset = false := by
  simp [controlIn, hrst]

/-- What holds of the core and its record in every cycle of a run without a reset. -/
def Running (p : FirHwRtl × CallTrace FirHwArgs AxisType) : Prop := Inv p.1 p.2 ∧ p.1.control.WriteFlag

theorem Running.step {p : FirHwRtl × CallTrace FirHwArgs AxisType} (h : Running p) (hrst : i.apRstN = true) :
    Running (stepTraced p i).1 :=
  ⟨h.1.step hrst, ControlSAxi.writeFlag_step h.2 (aReset_controlIn hrst)⟩

theorem registerFile_run {p : FirHwRtl × CallTrace FirHwArgs AxisType} (h : Running p) {is : List FirCycle}
    (his : ∀ i ∈ is, i.apRstN = true) :
    (Mealy.runState stepTraced p is).1.registerFile =
      Mealy.runState RegisterFile.access p.1.registerFile (Mealy.collect stepTraced committed p is) :=
  Mealy.device_run stepTraced RegisterFile.access committed (fun p => p.1.registerFile) (I := Running)
    (fun _ _ h hi => h.step hi)
    (fun _ _ h hi => ControlSAxi.registerFile_step h.2 (aReset_controlIn hi)) h his

theorem PowerOn.running (hs : PowerOn s) {r : FirCycle} (hr : r.apRstN = false)
    (hidle : apBlockState1 r = true) : Running ((s.step r).1, empty) := by
  refine ⟨.state1 (hs.reset hr hidle), ControlSAxi.AfterReset.writeFlag ?_⟩
  exact ControlSAxi.afterReset_step s.control (by simp [controlIn, hr])

end Registers

/-! ### Calls after the programming -/

/-- The register arguments of `FIR_init`. -/
structure Programmed (args : FirHwArgs) : Prop where
  tlastDnum : args.tlastDnum = 256
  smplRdNum : args.smplRdNum = 3
  tapNumM1 : args.tapNumM1 = 511
  coeffHw : args.coeffHw = coeffTable filter512Data

section Calls

variable {s : FirHwRtl} {i : FirCycle} {args : FirHwArgs}

theorem programmed_callArgs (h : s.registerFile = programmed) : Programmed (s.callArgs i) := by
  constructor
  · exact congrArg RegisterFile.tlastDnum h
  · exact congrArg RegisterFile.smplRdNum h
  · exact congrArg RegisterFile.tapNumM1 h
  · funext k
    exact congrArg (fun f : RegisterFile => (⟨f.coeffHw k⟩ : CoeffT)) h

theorem Programmed.nextArgs (hargs : Programmed args) (h : s.registerFile = programmed) :
    Programmed (s.nextArgs i args) := by
  obtain ⟨htlast, hsmpl, htap⟩ := nextArgs_fields (s := s) (i := i) args
  refine ⟨htlast.trans hargs.tlastDnum, hsmpl.trans hargs.smplRdNum, htap.trans hargs.tapNumM1, ?_⟩
  unfold FirHwRtl.nextArgs
  split_ifs
  · rw [readCoeff, ← hargs.coeffHw]
    apply Function.update_eq_self_iff.mpr
    rw [hargs.coeffHw]
    exact congrArg (fun f : RegisterFile => (⟨f.coeffHw _⟩ : CoeffT)) h
  · exact hargs.coeffHw

/-- A read. -/
def IsRead (op : Access) : Prop := ∃ addr, op = .read addr

theorem access_of_isRead {op : Access} (h : IsRead op) (f : RegisterFile) : (f.access op).1 = f := by
  obtain ⟨addr, rfl⟩ := h
  rfl

/-- What holds once the core is programmed, of the calls from number `n` on. -/
structure ProgrammedFrom (n : ℕ) (p : FirHwRtl × CallTrace FirHwArgs AxisType) : Prop where
  running : Running p
  registers : p.1.registerFile = programmed
  length : n ≤ p.2.calls.length
  calls : ∀ args ∈ p.2.calls.drop n, Programmed args

theorem ProgrammedFrom.step {n : ℕ} {p : FirHwRtl × CallTrace FirHwArgs AxisType} (h : ProgrammedFrom n p)
    (hrst : i.apRstN = true) (hread : ∀ op ∈ committed p i, IsRead op) :
    ProgrammedFrom n (stepTraced p i).1 := by
  have hregisters : (stepTraced p i).1.1.registerFile = p.1.registerFile := by
    have hstep : (stepTraced p i).1.1.registerFile = _ :=
      ControlSAxi.registerFile_step h.running.2 (aReset_controlIn hrst)
    rw [hstep]
    exact Mealy.invariant_run RegisterFile.access (I := fun f => f = p.1.registerFile)
      (fun f op hf hop => (access_of_isRead hop f).trans hf) rfl hread
  have hcalls := CallTrace.forall_calls_record (e := p.1.event i) (callMachine.sequential h.running.1)
    (Q := Programmed) (n := n) ?_ ?_ h.length h.calls
  · exact ⟨h.running.step hrst, hregisters.trans h.registers, hcalls.1, hcalls.2⟩
  · intro a ha
    unfold event at ha
    split_ifs at ha
    rw [← Option.some.inj ha]
    exact programmed_callArgs h.registers
  · exact fun a ha => ha.nextArgs h.registers

end Calls

end FirHwRtl

/-! ### The stream after the programming -/

/-- The word of the shipped filter at call `k`. -/
def filterWord (input : FirHwArgs → DinT) (calls : List FirHwArgs) (k : ℕ) : DoutT :=
  ApFixed.ofRaw (tapSum (coeffTable filter512Data) 511 (fun i => rawInput input calls (k - i)) / 2 ^ 15)

/-- From call `n` on the calls filter: a call emits nothing, or the filter's words of its two channels, and at
some phase it is every third one that emits. -/
structure FiltersFrom (n : ℕ) (calls : List FirHwArgs) : Prop where
  words : ∀ k < calls.length, n ≤ k → (Mealy.outputs firHw FirHwState.initial calls)[k]? = some [] ∨
    ∃ l r, (Mealy.outputs firHw FirHwState.initial calls)[k]? = some [l, r] ∧
      l.data = filterWord FirHwArgs.inputL calls k ∧ r.data = filterWord FirHwArgs.inputR calls k ∧
      l.keep = -1 ∧ r.keep = -1
  thirds : ∃ a < 3, ∀ k < calls.length, n ≤ k → (emitsPair calls k = true ↔ (k - n) % 3 = a)

theorem filtersFrom_of_programmed {calls : List FirHwArgs} {n : ℕ}
    (h : ∀ args ∈ calls.drop n, FirHwRtl.Programmed args) : FiltersFrom n calls := by
  have hargs : ∀ k (hk : k < calls.length), n ≤ k → FirHwRtl.Programmed calls[k] := by
    intro k hk hn
    apply h
    rw [List.mem_iff_getElem]
    exact ⟨k - n, by rw [List.length_drop]; omega, by simp [Nat.add_sub_cancel' hn]⟩
  refine ⟨?_, ?_⟩
  · intro k hk hn
    have hk' := hargs k hk hn
    rcases firHw_words calls k hk with hnone | ⟨l, r, hout, hl, hr, hkeep⟩
    · exact .inl hnone
    · rw [runWord, hk'.coeffHw, hk'.tapNumM1] at hl hr
      exact .inr ⟨l, r, hout, hl, hr, hkeep⟩
  · have hconst : ∀ k, n ≤ k → k < calls.length → smplRdNumAt calls k = 3 := by
      intro k hn hk
      rw [smplRdNumAt_eq hk, (hargs k hk hn).smplRdNum]
      rfl
    obtain ⟨a, ha, hmark⟩ := (firHw_triggered calls).periodic_from (by omega) hconst
    exact ⟨a, ha, fun k hk hn => hmark k hn hk⟩

theorem runState_toAccess (f : RegisterFile) (ops : List BusAccess) :
    Mealy.runState RegisterFile.access f (ops.map BusAccess.toAccess) =
      Mealy.runState RegisterFile.device f ops := by
  induction ops generalizing f with
  | nil => rfl
  | cons op ops ih => exact ih _

open FirHwRtl in
theorem programmedFrom_firInit {q : FirHwRtl × CallTrace FirHwArgs AxisType} (hrunning : Running q)
    {is₁ : List FirCycle} (his₁ : ∀ i ∈ is₁, i.apRstN = true) (p : XFirHw) {earlier : List Access}
    (hprog : Mealy.collect stepTraced committed q is₁ =
      earlier ++ ((firInit (some p)).accesses RegisterFile.device
        (Mealy.runState RegisterFile.access q.1.registerFile earlier)).map BusAccess.toAccess) :
    ProgrammedFrom (Mealy.runState stepTraced q is₁).2.calls.length (Mealy.runState stepTraced q is₁) := by
  have hregisters := registerFile_run hrunning his₁
  rw [hprog, Mealy.runState_append, runState_toAccess, ← BusProgram.run_fst, run_firInit] at hregisters
  refine ⟨?_, hregisters, le_refl _, by simp⟩
  exact Mealy.invariant_run stepTraced (I := Running) (fun _ _ h hi => h.step hi) hrunning his₁

open FirHwRtl in
theorem FirHwRtl.ProgrammedFrom.run {n : ℕ} {q : FirHwRtl × CallTrace FirHwArgs AxisType} (h : ProgrammedFrom n q)
    {is : List FirCycle} (his : ∀ i ∈ is, i.apRstN = true)
    (hquiet : ∀ op ∈ Mealy.collect stepTraced committed q is, IsRead op) :
    ProgrammedFrom n (Mealy.runState stepTraced q is) :=
  Mealy.invariant_run_of_seen stepTraced committed (I := ProgrammedFrom n)
    (fun _ _ h hi hread => h.step hi hread) h his hquiet

open FirHwRtl in
/-- **The core as `FIR_init` programs it.** From power-on, after a reset: let `is₁` be any run in which the
accesses of `FIR_init` take effect last, after any `earlier` ones, and `is₂` any run in which nothing is
written. Then the core runs as the source function on the samples it takes, and the calls that begin in `is₂`
filter: every third one emits, at some phase, and its words are those of the shipped filter over the last 512
pairs of samples. -/
theorem fir_programmed (s : FirHwRtl) (hs : PowerOn s) {r : FirCycle} (hr : r.apRstN = false)
    (hidle : apBlockState1 r = true) {is₁ is₂ : List FirCycle} (his₁ : ∀ i ∈ is₁, i.apRstN = true)
    (his₂ : ∀ i ∈ is₂, i.apRstN = true) (p : XFirHw) {earlier : List Access}
    (hprog : Mealy.collect stepTraced committed ((s.step r).1, empty) is₁ =
      earlier ++ ((firInit (some p)).accesses RegisterFile.device
        (Mealy.runState RegisterFile.access (s.step r).1.registerFile earlier)).map BusAccess.toAccess)
    (hquiet : ∀ op ∈ Mealy.collect stepTraced committed (Mealy.runState stepTraced ((s.step r).1, empty) is₁) is₂,
      IsRead op) :
    CallTrace.RunsAs firHw FirHwState.initial samplesOf
        (Mealy.runState stepTraced ((s.step r).1, empty) (is₁ ++ is₂)).2
        (Mealy.collect stepTraced acceptedPair ((s.step r).1, empty) (is₁ ++ is₂))
        ((Mealy.runState stepTraced ((s.step r).1, empty) (is₁ ++ is₂)).1.apCsFsm = .state1) ∧
      FiltersFrom (Mealy.runState stepTraced ((s.step r).1, empty) is₁).2.calls.length
        (Mealy.runState stepTraced ((s.step r).1, empty) (is₁ ++ is₂)).2.calls := by
  have hall : ∀ i ∈ is₁ ++ is₂, i.apRstN = true := by
    intro i hi
    rcases List.mem_append.mp hi with hi | hi
    · exact his₁ i hi
    · exact his₂ i hi
  refine ⟨(hs.reset hr hidle).runsAs hall, ?_⟩
  rw [Mealy.runState_append]
  exact filtersFrom_of_programmed ((programmedFrom_firInit (hs.running hr hidle) his₁ p hprog).run his₂ hquiet).calls

/-! ### A processor on the bus -/

namespace FirHwRtl

/-- A cycle in which no samples are offered and the processor drives `bus`. -/
def busCycle (bus : ControlIn) : FirCycle :=
  { readyCycle true 0 0 with inputLApVld := false, inputRApVld := false, bus := bus }

/-- The processor holds up a store on all three channels of a write. -/
def storeIn (addr : BitVec 12) (data : BitVec 32) (strb : BitVec 4) : ControlIn :=
  { ControlSAxi.busyCycle false addr data with wStrb := strb, arValid := false }

/-- No access. -/
def idleIn : ControlIn :=
  { ControlSAxi.busyCycle false 0 0 with awValid := false, wValid := false, arValid := false }

/-- The cycles of an access; only stores are made here. -/
def accessCycles : Access → List FirCycle
  | .write addr data strb => List.replicate 3 (busCycle (storeIn addr data strb))
  | .read _ => []

/-- A store of a whole word, or of bytes of it. -/
def AlignedStore (op : Access) : Prop := ∃ addr data strb, op = .write addr data strb ∧ aligned addr = addr

section Store

variable {c : ControlSAxi} {i : ControlIn}

/-- A cycle in which a store is held up and nothing is read. -/
structure Storing (i : ControlIn) : Prop where
  aReset : i.aReset = false
  awValid : i.awValid = true
  wValid : i.wValid = true
  bReady : i.bReady = true
  arValid : i.arValid = false

theorem storing_controlIn (s : FirHwRtl) (addr : BitVec 12) (data : BitVec 32) (strb : BitVec 4) :
    Storing (s.controlIn (busCycle (storeIn addr data strb))) := ⟨rfl, rfl, rfl, rfl, rfl⟩

theorem Storing.idle (hi : Storing i) (hc : c.wstate = .wrIdle) :
    c.commit i = [] ∧ (c.step i).1.wstate = .wrData ∧ (c.step i).1.waddr = aligned i.awAddr := by
  have har : c.arHs i = false := by simp [ControlSAxi.arHs, hi.arValid]
  have hw : c.wHs i = false := by simp [ControlSAxi.wHs, ControlSAxi.wReady, hc]
  have haw : c.awHs i = true := ControlSAxi.awHs_iff.mpr ⟨hi.awValid, hc⟩
  refine ⟨by simp [ControlSAxi.commit, har, hw], ?_, by simp [ControlSAxi.step, haw]⟩
  simp [ControlSAxi.step, ControlSAxi.wnext, hi.aReset, hc, hi.awValid]

theorem Storing.data (hi : Storing i) (hc : c.wstate = .wrData) :
    c.commit i = [.write c.waddr i.wData i.wStrb] ∧ (c.step i).1.wstate = .wrResp := by
  have har : c.arHs i = false := by simp [ControlSAxi.arHs, hi.arValid]
  have hw : c.wHs i = true := ControlSAxi.wHs_iff.mpr ⟨hi.wValid, hc, har⟩
  refine ⟨by simp [ControlSAxi.commit, har, hw], ?_⟩
  simp [ControlSAxi.step, ControlSAxi.wnext, hi.aReset, hc, hw]

theorem Storing.resp (hi : Storing i) (hc : c.wstate = .wrResp) :
    c.commit i = [] ∧ (c.step i).1.wstate = .wrIdle := by
  have har : c.arHs i = false := by simp [ControlSAxi.arHs, hi.arValid]
  have hw : c.wHs i = false := by simp [ControlSAxi.wHs, ControlSAxi.wReady, hc]
  have hb : c.bHs i = true := ControlSAxi.bHs_iff.mpr ⟨hi.bReady, hc⟩
  refine ⟨by simp [ControlSAxi.commit, har, hw], ?_⟩
  simp [ControlSAxi.step, ControlSAxi.wnext, hi.aReset, hc, hb]

end Store

theorem store_phases {p : FirHwRtl × CallTrace FirHwArgs AxisType} (hidle : p.1.control.wstate = .wrIdle)
    {addr : BitVec 12} (data : BitVec 32) (strb : BitVec 4) (haligned : aligned addr = addr) {i : FirCycle}
    (hi : i = busCycle (storeIn addr data strb)) :
    committed p i = [] ∧ committed (stepTraced p i).1 i = [.write addr data strb] ∧
      committed (stepTraced (stepTraced p i).1 i).1 i = [] ∧
      (stepTraced (stepTraced (stepTraced p i).1 i).1 i).1.1.control.wstate = .wrIdle := by
  subst hi
  have hstoring := fun s : FirHwRtl => storing_controlIn s addr data strb
  set i := busCycle (storeIn addr data strb)
  have h1 : committed p i = [] ∧ (stepTraced p i).1.1.control.wstate = .wrData ∧
      (stepTraced p i).1.1.control.waddr = addr := by
    obtain ⟨hcommit, hstate, haddr⟩ := (hstoring p.1).idle hidle
    exact ⟨hcommit, hstate, haddr.trans haligned⟩
  have h2 : committed (stepTraced p i).1 i = [.write (stepTraced p i).1.1.control.waddr data strb] ∧
      (stepTraced (stepTraced p i).1 i).1.1.control.wstate = .wrResp :=
    (hstoring (stepTraced p i).1.1).data h1.2.1
  have h3 : committed (stepTraced (stepTraced p i).1 i).1 i = [] ∧
      (stepTraced (stepTraced (stepTraced p i).1 i).1 i).1.1.control.wstate = .wrIdle :=
    (hstoring (stepTraced (stepTraced p i).1 i).1.1).resp h2.2
  rw [h1.2.2] at h2
  exact ⟨h1.1, h2.1, h3⟩

theorem committed_accessCycles {p : FirHwRtl × CallTrace FirHwArgs AxisType} (hidle : p.1.control.wstate = .wrIdle)
    {op : Access} (hop : AlignedStore op) :
    Mealy.collect stepTraced committed p (accessCycles op) = [op] ∧
      (Mealy.runState stepTraced p (accessCycles op)).1.control.wstate = .wrIdle := by
  obtain ⟨addr, data, strb, rfl, haligned⟩ := hop
  obtain ⟨h1, h2, h3, hnext⟩ := store_phases hidle data strb haligned rfl
  refine ⟨?_, hnext⟩
  simp only [accessCycles, List.replicate, Mealy.collect, h1, h2, h3]
  rfl

theorem committed_flatMap {p : FirHwRtl × CallTrace FirHwArgs AxisType} (hidle : p.1.control.wstate = .wrIdle)
    {ops : List Access} (hops : ∀ op ∈ ops, AlignedStore op) :
    Mealy.collect stepTraced committed p (ops.flatMap accessCycles) = ops ∧
      (Mealy.runState stepTraced p (ops.flatMap accessCycles)).1.control.wstate = .wrIdle := by
  induction ops generalizing p with
  | nil => exact ⟨rfl, hidle⟩
  | cons op ops ih =>
    obtain ⟨hop, hnext⟩ := committed_accessCycles hidle (hops op List.mem_cons_self)
    obtain ⟨hrest, hend⟩ := ih hnext fun o ho => hops o (List.mem_cons_of_mem _ ho)
    rw [List.flatMap_cons, Mealy.collect_append, Mealy.runState_append, hop, hrest]
    exact ⟨rfl, hend⟩

theorem alignedStore_xilOut32 {addr : BitVec 64} (data : BitVec 32) (h : 4 ∣ addr.toNat) :
    AlignedStore (BusAccess.store addr data (-1)).toAccess := by
  refine ⟨_, _, _, rfl, ?_⟩
  apply BitVec.eq_of_toNat_eq
  rw [ControlSAxi.toNat_aligned, BitVec.toNat_setWidth]
  omega

theorem dvd_writeReg (p : XFirHw) {regOffset : BitVec 12} (h : 4 ∣ regOffset.toNat) :
    4 ∣ (p.controlBaseAddress + regOffset.setWidth 64).toNat := by
  have hbase := congrArg BitVec.toNat p.aligned
  simp only [BitVec.toNat_setWidth, BitVec.toNat_ofNat, BitVec.toNat_add] at hbase ⊢
  omega

theorem alignedStore_firInit (p : XFirHw) (f : RegisterFile) :
    ∀ op ∈ ((firInit (some p)).accesses RegisterFile.device f).map BusAccess.toAccess, AlignedStore op := by
  have hbase := congrArg BitVec.toNat p.aligned
  simp only [BitVec.toNat_setWidth, BitVec.toNat_ofNat] at hbase
  have hwords : ∀ g : RegisterFile, ∀ op ∈ (p.writeCoeffHwWords 0 rawCoeffs 512).accesses RegisterFile.device g,
      AlignedStore op.toAccess := by
    intro g op hop
    rw [XFirHw.writeCoeffHwWords, if_neg (by decide), BusProgram.accesses_bind,
      BusProgram.accesses_forRange _ _ _ fun i t => accesses_xilOut32 _ _ t _] at hop
    simp only [BusProgram.accesses_pure, List.append_nil, List.mem_flatMap, List.mem_singleton] at hop
    obtain ⟨i, _, rfl⟩ := hop
    apply alignedStore_xilOut32
    rw [toNat_coeffAddr]
    omega
  have hreg : ∀ (regOffset : BitVec 12) (data : BitVec 32) (g : RegisterFile), 4 ∣ regOffset.toNat →
      ∀ op ∈ (p.writeReg regOffset data).accesses RegisterFile.device g, AlignedStore op.toAccess := by
    intro regOffset data g h op hop
    rw [XFirHw.writeReg, accesses_xilOut32, List.mem_singleton] at hop
    subst hop
    exact alignedStore_xilOut32 data (dvd_writeReg p h)
  simp only [List.mem_map, firInit, BusProgram.accesses_bind, List.mem_append, forall_exists_index, and_imp]
  rintro _ op hop rfl
  rcases hop with hop | hop | hop | hop
  · exact hwords _ op hop
  · exact hreg addrTapNumM1Data0 _ _ (by decide) op hop
  · exact hreg addrSmplRdNumData0 _ _ (by decide) op hop
  · exact hreg addrTlastDnumData0 _ _ (by decide) op hop

theorem committed_idleIn (p : FirHwRtl × CallTrace FirHwArgs AxisType) {i : FirCycle} (hi : i.bus = idleIn) :
    committed p i = [] := by
  simp [committed, controlIn, hi, idleIn, ControlSAxi.commit, ControlSAxi.arHs, ControlSAxi.wHs]

/-- The core after power-on and a reset. -/
abbrev afterReset : FirHwRtl × CallTrace FirHwArgs AxisType := ((initial.step (readyCycle false 0 0)).1, empty)

/-- The stores of `FIR_init`. -/
def initStores : List Access :=
  ((firInit (some firIp)).accesses RegisterFile.device afterReset.1.registerFile).map BusAccess.toAccess

theorem alignedStore_initStores : ∀ op ∈ initStores, AlignedStore op :=
  alignedStore_firInit firIp afterReset.1.registerFile

/-- `FIR_init`, store by store. -/
def initRun : List FirCycle := busCycle idleIn :: initStores.flatMap accessCycles

/-- Samples are offered and nothing is accessed, for longer than a packet takes. -/
def sampleRun : List FirCycle := List.replicate 300000 { readyCycle true 3 5 with bus := idleIn }

theorem length_sampleRun : sampleRun.length = 300000 := List.length_replicate

theorem eq_of_mem_sampleRun {i : FirCycle} (hi : i ∈ sampleRun) : i = { readyCycle true 3 5 with bus := idleIn } :=
  List.eq_of_mem_replicate hi

theorem apRstN_initRun : ∀ i ∈ initRun, i.apRstN = true := by
  intro i hi
  rcases List.mem_cons.mp hi with rfl | hi
  · rfl
  · obtain ⟨op, hop, hi⟩ := List.mem_flatMap.mp hi
    obtain ⟨addr, data, strb, rfl, _⟩ := alignedStore_initStores op hop
    rw [List.eq_of_mem_replicate hi]
    rfl

theorem committed_initRun : Mealy.collect stepTraced committed afterReset initRun = initStores := by
  rw [initRun, Mealy.collect, committed_idleIn _ rfl, List.nil_append]
  exact (committed_flatMap rfl alignedStore_initStores).1

theorem committed_sampleRun (p : FirHwRtl × CallTrace FirHwArgs AxisType) :
    Mealy.collect stepTraced committed p sampleRun = [] := by
  apply Mealy.collect_eq_nil
  intro q i hi
  rw [eq_of_mem_sampleRun hi]
  exact committed_idleIn q rfl

theorem fir_programmed_shipped :
    CallTrace.RunsAs firHw FirHwState.initial samplesOf
        (Mealy.runState stepTraced ((initial.step (readyCycle false 0 0)).1, empty) (initRun ++ sampleRun)).2
        (Mealy.collect stepTraced acceptedPair ((initial.step (readyCycle false 0 0)).1, empty)
          (initRun ++ sampleRun))
        ((Mealy.runState stepTraced ((initial.step (readyCycle false 0 0)).1, empty)
          (initRun ++ sampleRun)).1.apCsFsm = .state1) ∧
      FiltersFrom
        (Mealy.runState stepTraced ((initial.step (readyCycle false 0 0)).1, empty) initRun).2.calls.length
        (Mealy.runState stepTraced ((initial.step (readyCycle false 0 0)).1, empty)
          (initRun ++ sampleRun)).2.calls := by
  have hsamples : ∀ i ∈ sampleRun, i.apRstN = true := by
    intro i hi
    rw [eq_of_mem_sampleRun hi]
    rfl
  have hquiet : ∀ op ∈ Mealy.collect stepTraced committed
      (Mealy.runState stepTraced afterReset initRun) sampleRun, IsRead op := by
    rw [committed_sampleRun]
    simp
  have hprog : Mealy.collect stepTraced committed afterReset initRun =
      [] ++ ((firInit (some firIp)).accesses RegisterFile.device
        (Mealy.runState RegisterFile.access afterReset.1.registerFile [])).map BusAccess.toAccess := by
    rw [committed_initRun, initStores, List.nil_append, Mealy.runState_nil]
  exact fir_programmed initial initial_powerOn (r := readyCycle false 0 0) rfl rfl apRstN_initRun hsamples firIp
    hprog hquiet

end FirHwRtl

end FpgaLabor
