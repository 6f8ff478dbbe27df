import FpgaLabor.Hls.BypassHw
import FpgaLabor.Rtl.StreamPort

/-!
# The generated core `bypass_hw.v`

The state machine that synthesis made of `bypass_hw`. It hands the left word to the stream port in the cycle
in which it takes the samples and the right word in the next one, so here the port decides when a call can
begin. `bypassHw_rtl_refines` says that the core runs as the source function under any timing, and
`bypassHw_rtl_progress` that it takes three cycles for a call and waits for nothing but its two sides. The
register of its bus is an input here, free to change in every cycle.
-/

namespace FpgaLabor

/-- `ap_CS_fsm`. -/
inductive BypassFsm
  | state1
  | state2
  | state3
deriving DecidableEq, Repr

structure BypassHwRtl where
  apCsFsm : BypassFsm
  cnt : BitVec 16
  inputRReadReg : BitVec 24
  outDataLast1Reg : Bool
  res : AxisSlices

/-- The inputs of one cycle, the register `tlast_dnum`, and what an undefined multiplexer carries. -/
structure BypassCycle where
  apRstN : Bool
  inputL : BitVec 24
  inputLApVld : Bool
  inputR : BitVec 24
  inputRApVld : Bool
  resTready : Bool
  tlastDnum : BitVec 16
  undefBeat : AxisType

/-- The outputs of one cycle. `input_l_ap_ack` and `input_r_ap_ack` are equal. -/
structure BypassOut where
  inputApAck : Bool
  res : BoundedFifo.Ports AxisType

namespace BypassHwRtl

open CallTrace (empty)
open PacketCounter (bump hit ite_hit)

section Step

variable (s : BypassHwRtl) (i : BypassCycle)

/-- `res_TREADY_int_regslice`. -/
def resTreadyInt : Bool := s.res.data.ackInT

/-- `ap_block_state1`. -/
def apBlockState1 : Bool := !s.resTreadyInt || !i.inputRApVld || !i.inputLApVld

/-- `input_l_ap_ack` and `input_r_ap_ack`. -/
def accept : Bool := s.apCsFsm == .state1 && !s.apBlockState1 i

def outDataLast : Bool := s.cnt + 1 == i.tlastDnum

def selectLn33 : BitVec 16 := if s.outDataLast i then 1 else s.cnt + 2

def outDataLast1 : Bool := s.selectLn33 i == i.tlastDnum

def selectLn39 : BitVec 16 := if s.outDataLast1 i then 0 else s.selectLn33 i

/-- `res_TVALID_int_regslice`. -/
def resTvalidInt : Bool := (s.apCsFsm == .state2 && s.resTreadyInt) || s.accept i

/-- `{input_l, 8'd0}`. -/
def outDataData (sample : BitVec 24) : DoutT := ⟨sample ++ 0#8⟩

/-- What the core hands to its stream port. -/
def resInt : AxisType :=
  if s.apCsFsm == .state2 && s.resTreadyInt then ⟨outDataData s.inputRReadReg, -1, s.outDataLast1Reg⟩
  else if s.accept i then ⟨outDataData i.inputL, -1, s.outDataLast i⟩
  else i.undefBeat

/-- `ap_block_state3`. -/
def apBlockState3 : Bool := !s.resTreadyInt || s.res.data.apdoneBlk i.resTready

/-- The edge that ends the call. -/
def endCall : Bool := s.apCsFsm == .state3 && !s.apBlockState3 i

def regsliceIn : RegsliceIn AxisType where
  dataIn := s.resInt i
  vldIn := s.resTvalidInt i
  ackOut := i.resTready
  apRst := !i.apRstN

/-- `ap_NS_fsm`. -/
def apNsFsm : BypassFsm :=
  match s.apCsFsm with
  | .state1 => if s.accept i then .state2 else .state1
  | .state2 => if s.resTreadyInt then .state3 else .state2
  | .state3 => if !s.apBlockState3 i then .state1 else .state3

/-- One clock edge. -/
def step : BypassHwRtl × BypassOut :=
  ({ apCsFsm := if !i.apRstN then .state1 else s.apNsFsm i
     cnt := if s.accept i then s.selectLn39 i else s.cnt
     inputRReadReg := if s.apCsFsm == .state1 then i.inputR else s.inputRReadReg
     outDataLast1Reg := if s.apCsFsm == .state1 then s.outDataLast1 i else s.outDataLast1Reg
     res := (s.res.step (s.regsliceIn i)).1 },
    { inputApAck := s.accept i
      res := s.res.ports })

/-- The registers with a power-on value. -/
structure PowerOn : Prop where
  fsm : s.apCsFsm = .state1
  cnt : s.cnt = 0

/-- The arguments of a call that begins in the cycle. -/
def callArgs (i : BypassCycle) : BypassHwArgs where
  tlastDnum := i.tlastDnum
  inputL := ⟨i.inputL⟩
  inputR := ⟨i.inputR⟩

/-- What the cycle adds to the record. -/
def event : CallEvent BypassHwArgs AxisType where
  begins := if s.accept i then some (callArgs i) else none
  completes := id
  ends := s.endCall i
  delivers := BoundedFifo.given (s.regsliceIn i).toDrive s.res.ports

/-- One clock edge with its record. -/
def stepTraced (p : BypassHwRtl × CallTrace BypassHwArgs AxisType) (i : BypassCycle) :
    (BypassHwRtl × CallTrace BypassHwArgs AxisType) × BypassOut :=
  (((p.1.step i).1, p.2.record (p.1.event i)), (p.1.step i).2)

end Step

/-! ### The phases of a call -/

section Phases

variable {s : BypassHwRtl} {t : CallTrace BypassHwArgs AxisType} {i : BypassCycle} {args : BypassHwArgs}

/-- The static variable of the source when the call under way began. -/
def statics (t : CallTrace BypassHwArgs AxisType) : BypassHwState :=
  CallTrace.statics bypassHw BypassHwState.initial t.finished

/-- Between two calls. -/
structure Ready (s : BypassHwRtl) (t : CallTrace BypassHwArgs AxisType) : Prop where
  fsm : s.apCsFsm = .state1
  current : t.current = none
  cnt : s.cnt = (statics t).cnt
  res : s.res.AfterReset ∨ s.res.Holds []
  delivered : t.delivered = CallTrace.emitted bypassHw BypassHwState.initial t.finished

/-- In a call: what state 1 has stored. -/
structure Taken (s : BypassHwRtl) (t : CallTrace BypassHwArgs AxisType) (args : BypassHwArgs) : Prop where
  current : t.current = some args
  cnt : s.cnt = (bypassHw (statics t) args).1.cnt
  right : outDataData s.inputRReadReg = args.inputR.assign 32 1
  last1 : s.outDataLast1Reg = hit args.tlastDnum (bump args.tlastDnum (statics t).cnt)

/-- What holds in each state of a run without a reset. -/
inductive Inv (s : BypassHwRtl) (t : CallTrace BypassHwArgs AxisType) : Prop
  | state1 (h : Ready s t)
  | state2 (args : BypassHwArgs) (hfsm : s.apCsFsm = .state2) (h : Taken s t args)
      (hpushed : s.res.Pushed bypassHw BypassHwState.initial t ((bypassHw (statics t) args).2.take 1))
  | state3 (args : BypassHwArgs) (hfsm : s.apCsFsm = .state3) (h : Taken s t args)
      (hpushed : s.res.Pushed bypassHw BypassHwState.initial t (bypassHw (statics t) args).2)

theorem outDataData_eq (sample : DinT) : outDataData sample.V = sample.assign 32 1 := by
  rw [ApFixed.assign_of_le (by omega), outDataData, ApFixed.ofRaw, ← BitVec.ofInt_toInt (x := _ ++ _),
    BitVec.toInt_append_zero, mul_comm]
  rfl

theorem counter_eq (s : BypassHwRtl) (i : BypassCycle) : s.outDataLast i = hit i.tlastDnum s.cnt ∧
    s.outDataLast1 i = hit i.tlastDnum (bump i.tlastDnum s.cnt) ∧
    s.selectLn39 i = bump i.tlastDnum (bump i.tlastDnum s.cnt) := by
  have hselect : s.selectLn33 i = bump i.tlastDnum s.cnt + 1 := ite_hit i.tlastDnum s.cnt
  have hlast1 : s.outDataLast1 i = hit i.tlastDnum (bump i.tlastDnum s.cnt) := by
    rw [outDataLast1, hselect, hit]
  refine ⟨rfl, hlast1, ?_⟩
  rw [selectLn39, hlast1, hselect]
  rfl

theorem ready_of_vld (h : (s.regsliceIn i).vldIn = true) : s.res.data.ackInT = true := by
  simp only [regsliceIn, resTvalidInt, accept, apBlockState1, resTreadyInt] at h
  grind

theorem pushed_step {words : List AxisType} (h : s.res.Pushed bypassHw BypassHwState.initial t words)
    (hrst : i.apRstN = true) (hend : s.endCall i = false) :
    (s.step i).1.res.Pushed bypassHw BypassHwState.initial (t.record (s.event i))
      (words ++ AxisSlices.pushed (s.regsliceIn i)) :=
  h.step (by simp [regsliceIn, hrst]) ready_of_vld hend rfl

theorem Ready.holds_of_ready (h : Ready s t) (hready : s.resTreadyInt = true) : s.res.Holds [] := by
  rcases h.res with ⟨r, hr, _, hack⟩ | hholds
  · simp [resTreadyInt, hr, AxisSlices.split, RegsliceBoth.map, hack] at hready
  · exact hholds

theorem Ready.taken (h : Ready s t) (haccept : s.accept i = true) (hrst : i.apRstN = true) :
    Inv (s.step i).1 (t.record (s.event i)) := by
  have hend : s.endCall i = false := by simp [endCall, h.fsm]
  have hfin : statics (t.record (s.event i)) = statics t := CallTrace.statics_record hend
  have hready : s.resTreadyInt = true := by
    simp only [accept, apBlockState1] at haccept
    grind
  obtain ⟨hlast, hlast1, hcnt⟩ := counter_eq s i
  have hnext := pushed_step ⟨[], h.holds_of_ready hready, .nil h.delivered⟩ hrst hend
  have hpush : AxisSlices.pushed (s.regsliceIn i) = (bypassHw (statics t) (callArgs i)).2.take 1 := by
    simp [AxisSlices.pushed, regsliceIn, resTvalidInt, resInt, haccept, h.fsm, bypassHw_eq, hlast, h.cnt,
      callArgs, ← outDataData_eq]
  rw [List.nil_append, hpush] at hnext
  apply Inv.state2 (callArgs i)
  · simp [BypassHwRtl.step, hrst, apNsFsm, h.fsm, haccept]
  · constructor
    · simp [CallTrace.record, event, haccept]
    · simp [BypassHwRtl.step, hfin, haccept, hcnt, h.cnt, bypassHw_eq, callArgs]
    · simp [BypassHwRtl.step, h.fsm, ← outDataData_eq, callArgs]
    · simp [BypassHwRtl.step, h.fsm, hfin, hlast1, h.cnt, callArgs]
  · rwa [hfin]

theorem Ready.step (h : Ready s t) (hrst : i.apRstN = true) : Inv (s.step i).1 (t.record (s.event i)) := by
  by_cases haccept : s.accept i = true
  · exact h.taken haccept hrst
  · have haccept' : s.accept i = false := by simpa using haccept
    have hend : s.endCall i = false := by simp [endCall, h.fsm]
    have hfin : statics (t.record (s.event i)) = statics t := CallTrace.statics_record hend
    have hvalid : s.resTvalidInt i = false := by simp [resTvalidInt, h.fsm, haccept']
    obtain ⟨hholds, hgiven⟩ := AxisSlices.step_quiet h.res (i := s.regsliceIn i) (by simp [regsliceIn, hrst]) hvalid
    apply Inv.state1
    constructor
    · simp [BypassHwRtl.step, hrst, apNsFsm, h.fsm, haccept']
    · simp [CallTrace.record, event, haccept', hend, h.current]
    · simp [BypassHwRtl.step, hfin, haccept', h.cnt]
    · exact .inr hholds
    · simp [CallTrace.record, event, hgiven, hend, h.delivered]

theorem Taken.step (h : Taken s t args) (hfsm : s.apCsFsm ≠ .state1) (hend : s.endCall i = false) :
    Taken (s.step i).1 (t.record (s.event i)) args := by
  have haccept : s.accept i = false := by simp [accept, hfsm]
  have hfin : statics (t.record (s.event i)) = statics t := CallTrace.statics_record hend
  constructor
  · simp [CallTrace.record, event, haccept, hend, h.current]
  · simp [BypassHwRtl.step, hfin, haccept, h.cnt]
  · simp [BypassHwRtl.step, hfsm, h.right]
  · simp [BypassHwRtl.step, hfsm, hfin, h.last1]

theorem step_state2 (hfsm : s.apCsFsm = .state2) (h : Taken s t args)
    (hpushed : s.res.Pushed bypassHw BypassHwState.initial t ((bypassHw (statics t) args).2.take 1))
    (hrst : i.apRstN = true) :
    Inv (s.step i).1 (t.record (s.event i)) := by
  have hend : s.endCall i = false := by simp [endCall, hfsm]
  have hfin : statics (t.record (s.event i)) = statics t := CallTrace.statics_record hend
  have hready : s.resTreadyInt = true := hpushed.ackIn (List.length_take_le 1 _)
  have hnext := pushed_step hpushed hrst hend
  have hpush : (bypassHw (statics t) args).2.take 1 ++ AxisSlices.pushed (s.regsliceIn i) =
      (bypassHw (statics t) args).2 := by
    simp [AxisSlices.pushed, regsliceIn, resTvalidInt, resInt, hready, hfsm, bypassHw_eq, h.right, h.last1]
  rw [hpush] at hnext
  apply Inv.state3 args _ (h.step (by simp [hfsm]) hend)
  · rwa [hfin]
  · simp [BypassHwRtl.step, hrst, apNsFsm, hfsm, hready]

theorem Taken.end (h : Taken s t args) (hfsm : s.apCsFsm = .state3)
    (hpushed : s.res.Pushed bypassHw BypassHwState.initial t (bypassHw (statics t) args).2) (hrst : i.apRstN = true)
    (hend : s.endCall i = true) : Ready (s.step i).1 (t.record (s.event i)) := by
  have haccept : s.accept i = false := by simp [accept, hfsm]
  have hfin : statics (t.record (s.event i)) = (bypassHw (statics t) args).1 :=
    CallTrace.statics_record_end h.current hend
  have hblock : s.apBlockState3 i = false := by simpa [endCall, hfsm] using hend
  obtain ⟨hholds, hdelivered⟩ := hpushed.end (e := s.event i) (i := s.regsliceIn i) h.current
    (by simp [regsliceIn, hrst]) (by simp [regsliceIn, resTvalidInt, hfsm, haccept])
    (Bool.or_eq_false_iff.mp hblock).2 hend rfl
  constructor
  · simp [BypassHwRtl.step, hrst, apNsFsm, hfsm, hblock]
  · simp [CallTrace.record, event, haccept, hend]
  · rw [hfin, ← h.cnt]
    simp [BypassHwRtl.step, haccept]
  · exact .inr hholds
  · exact hdelivered

theorem step_state3 (hfsm : s.apCsFsm = .state3) (h : Taken s t args)
    (hpushed : s.res.Pushed bypassHw BypassHwState.initial t (bypassHw (statics t) args).2)
    (hrst : i.apRstN = true) :
    Inv (s.step i).1 (t.record (s.event i)) := by
  by_cases hend : s.endCall i = true
  · exact .state1 (h.end hfsm hpushed hrst hend)
  · have hend' : s.endCall i = false := by simpa using hend
    have hblock : s.apBlockState3 i = true := by simpa [endCall, hfsm] using hend'
    have hfin : statics (t.record (s.event i)) = statics t := CallTrace.statics_record hend'
    have hnone : AxisSlices.pushed (s.regsliceIn i) = [] := by
      simp [AxisSlices.pushed, regsliceIn, resTvalidInt, hfsm, accept]
    have hnext := pushed_step hpushed hrst hend'
    rw [hnone, List.append_nil] at hnext
    apply Inv.state3 args _ (h.step (by simp [hfsm]) hend')
    · rwa [hfin]
    · simp [BypassHwRtl.step, hrst, apNsFsm, hfsm, hblock]

theorem Inv.step (h : Inv s t) (hrst : i.apRstN = true) : Inv (s.step i).1 (t.record (s.event i)) := by
  cases h with
  | state1 h => exact h.step hrst
  | state2 args hfsm h hpushed => exact step_state2 hfsm h hpushed hrst
  | state3 args hfsm h hpushed => exact step_state3 hfsm h hpushed hrst

end Phases

/-! ### Runs -/

/-- The pair of samples of a call. -/
def samplesOf (args : BypassHwArgs) : DinT × DinT := (args.inputL, args.inputR)

/-- The pair of samples handed over in a cycle. -/
def acceptedPair (p : BypassHwRtl × CallTrace BypassHwArgs AxisType) (i : BypassCycle) : List (DinT × DinT) :=
  if p.1.accept i then [(⟨i.inputL⟩, ⟨i.inputR⟩)] else []

/-- No pair of samples is offered. -/
def noPair (i : BypassCycle) : Bool := !i.inputRApVld || !i.inputLApVld

theorem PowerOn.reset {s : BypassHwRtl} (hs : PowerOn s) {r : BypassCycle} (hr : r.apRstN = false)
    (hidle : noPair r = true) : Ready (s.step r).1 empty := by
  have haccept : s.accept r = false := by
    unfold noPair at hidle
    simp only [accept, apBlockState1]
    grind
  constructor
  · simp [BypassHwRtl.step, hr]
  · rfl
  · simp only [BypassHwRtl.step, haccept, Bool.false_eq_true, if_false, hs.cnt]
    rfl
  · exact .inl (AxisSlices.afterReset_step _ (by simp [regsliceIn, hr]))
  · rfl

section Runs

variable {s : BypassHwRtl} {t : CallTrace BypassHwArgs AxisType}

theorem Inv.agrees (h : Inv s t) : t.Agrees bypassHw BypassHwState.initial := by
  cases h with
  | state1 h => exact CallTrace.agrees_of_none h.current h.delivered
  | state2 args _ h hpushed => exact hpushed.agrees h.current (List.take_append_drop 1 _)
  | state3 args _ h hpushed => exact hpushed.agrees h.current (List.append_nil _)

theorem Inv.current_of_state1 (h : Inv s t) (hfsm : s.apCsFsm = .state1) : t.current = none := by
  cases h with
  | state1 h => exact h.current
  | state2 _ h | state3 _ h => simp [hfsm] at h

end Runs

/-- The core makes the calls of the source function: one begins in state 1 and ends in state 3. -/
theorem callMachine : CallTrace.CallMachine BypassHwRtl.step BypassHwRtl.event bypassHw BypassHwState.initial
    samplesOf acceptedPair (fun s => s.apCsFsm = .state1) (fun i => i.apRstN = true) Inv where
  keeps h hi := h.step hi
  agrees h := h.agrees
  rests h hfsm := h.current_of_state1 hfsm
  begins := by
    intro s i hbegins
    have hfsm : s.apCsFsm = .state1 := by
      by_contra hne
      simp [event, accept, hne] at hbegins
    exact ⟨hfsm, by simp [event, endCall, hfsm]⟩
  completes s i args := rfl
  takes := by
    intro s t i
    by_cases haccept : s.accept i = true <;> simp [event, acceptedPair, haccept, samplesOf, callArgs]

/-- **The generated core is the source function.** From power-on, after a reset in which no samples are
offered, whatever the timing of the samples and of the sink: the calls take the pairs of samples that are
handed over, in order, and the beats that have left the core are those of the source on these calls, all
but what the call under way still owes. -/
theorem bypassHw_rtl_refines (s : BypassHwRtl) (hs : PowerOn s) {r : BypassCycle} (hr : r.apRstN = false)
    (hidle : noPair r = true) {is : List BypassCycle} (his : ∀ i ∈ is, i.apRstN = true) :
    CallTrace.RunsAs bypassHw BypassHwState.initial samplesOf
      (Mealy.runState stepTraced ((s.step r).1, empty) is).2
      (Mealy.collect stepTraced acceptedPair ((s.step r).1, empty) is)
      ((Mealy.runState stepTraced ((s.step r).1, empty) is).1.apCsFsm = .state1) :=
  callMachine.runsAs (.state1 (hs.reset hr hidle)) his

/-- The registers at power-on, the others cleared. -/
def initial : BypassHwRtl where
  apCsFsm := .state1
  cnt := 0
  inputRReadReg := 0
  outDataLast1Reg := false
  res := AxisSlices.initial

theorem initial_powerOn : PowerOn initial := ⟨rfl, rfl⟩

/-- A cycle in which both sides are ready. -/
def readyCycle (apRstN : Bool) (inputL inputR : BitVec 24) : BypassCycle where
  apRstN := apRstN
  inputL := inputL
  inputLApVld := apRstN
  inputR := inputR
  inputRApVld := apRstN
  resTready := true
  tlastDnum := 256
  undefBeat := ⟨0, 0, false⟩

/-- Four cycles after a reset. -/
def readyRun : List BypassCycle := List.replicate 4 (readyCycle true 3 5)

theorem bypassHw_rtl_refines_ready :
    CallTrace.RunsAs bypassHw BypassHwState.initial samplesOf
      (Mealy.runState stepTraced ((initial.step (readyCycle false 0 0)).1, empty) readyRun).2
      (Mealy.collect stepTraced acceptedPair ((initial.step (readyCycle false 0 0)).1, empty) readyRun)
      ((Mealy.runState stepTraced ((initial.step (readyCycle false 0 0)).1, empty) readyRun).1.apCsFsm =
        .state1) :=
  bypassHw_rtl_refines initial initial_powerOn rfl rfl (by simp [readyRun, readyCycle])

/-! ### How long a run takes -/

/-- The cycles that the call under way still takes, but for those in which the sink is not ready; one for
the dead cycle of the stream port after a reset. -/
def remainingCycles (s : BypassHwRtl) : ℕ :=
  match s.apCsFsm with
  | .state1 => if s.resTreadyInt then 0 else 1
  | .state2 => 2
  | .state3 => s.res.drainCycles

/-- A cycle of state 1 without a pair of samples. -/
def starved (p : BypassHwRtl × CallTrace BypassHwArgs AxisType) (i : BypassCycle) : Bool :=
  p.1.apCsFsm == .state1 && noPair i

/-- A cycle with a beat on the stream port that the sink does not take. -/
def stalled (p : BypassHwRtl × CallTrace BypassHwArgs AxisType) (i : BypassCycle) : Bool :=
  p.1.res.stalled i.resTready

/-- What a cycle costs: the call that begins in it, and the cycle itself if the core is starved or stalled. -/
def cycleCost : BypassHwRtl × CallTrace BypassHwArgs AxisType → BypassCycle → ℕ :=
  Mealy.callCost (fun p i => 3 * (acceptedPair p i).length) starved stalled

section Cycles

variable {s : BypassHwRtl} {t : CallTrace BypassHwArgs AxisType} {i : BypassCycle} {args : BypassHwArgs}

theorem remainingCycles_state1 (h : Ready s t) (hrst : i.apRstN = true) :
    remainingCycles (s.step i).1 + 1 ≤ remainingCycles s + cycleCost (s, t) i := by
  by_cases haccept : s.accept i = true
  · have hfsm : (s.step i).1.apCsFsm = .state2 := by simp [BypassHwRtl.step, hrst, apNsFsm, h.fsm, haccept]
    simp only [remainingCycles, hfsm, cycleCost, Mealy.callCost, acceptedPair, haccept, if_true,
      List.length_singleton]
    omega
  · have hfsm : (s.step i).1.apCsFsm = .state1 := by simp [BypassHwRtl.step, hrst, apNsFsm, h.fsm, haccept]
    have haccept' : s.accept i = false := by simpa using haccept
    have hvalid : s.resTvalidInt i = false := by simp [resTvalidInt, h.fsm, haccept']
    have hholds : (s.step i).1.res.Holds [] :=
      (AxisSlices.step_quiet h.res (i := s.regsliceIn i) (by simp [regsliceIn, hrst]) hvalid).1
    have hready : (s.step i).1.resTreadyInt = true := by simp [resTreadyInt, hholds.ackIn]
    simp only [remainingCycles, hfsm, hready, h.fsm, if_true]
    by_cases hnow : s.resTreadyInt = true
    · have hstarved : starved (s, t) i = true := by
        simp only [accept, apBlockState1, h.fsm, hnow] at haccept'
        simp only [starved, noPair, h.fsm]
        grind
      simp only [cycleCost, Mealy.callCost, hstarved, if_true]
      omega
    · simp only [hnow, Bool.false_eq_true, if_false]
      omega

theorem remainingCycles_state2 (hfsm : s.apCsFsm = .state2)
    (hpushed : s.res.Pushed bypassHw BypassHwState.initial t ((bypassHw (statics t) args).2.take 1))
    (hrst : i.apRstN = true) :
    remainingCycles (s.step i).1 + 1 ≤ remainingCycles s + cycleCost (s, t) i := by
  have hready : s.resTreadyInt = true := hpushed.ackIn (List.length_take_le 1 _)
  obtain ⟨q, hholds, hlen⟩ := hpushed.holds
  have hfsm' : (s.step i).1.apCsFsm = .state3 := by simp [BypassHwRtl.step, hrst, apNsFsm, hfsm, hready]
  have hdrain : (s.res.step (s.regsliceIn i)).1.drainCycles ≤ 1 + if stalled (s, t) i then 1 else 0 :=
    hholds.drain_push (hlen.trans (List.length_take_le 1 _)) (by simp [regsliceIn, hrst])
  have hthen : remainingCycles (s.step i).1 = (s.res.step (s.regsliceIn i)).1.drainCycles := by
    simp only [remainingCycles, hfsm']
    rfl
  have hnow : remainingCycles s = 2 := by simp only [remainingCycles, hfsm]
  rw [hthen, hnow]
  unfold cycleCost Mealy.callCost
  omega

theorem remainingCycles_state3 (hfsm : s.apCsFsm = .state3)
    (hpushed : s.res.Pushed bypassHw BypassHwState.initial t (bypassHw (statics t) args).2)
    (hrst : i.apRstN = true) :
    remainingCycles (s.step i).1 + 1 ≤ remainingCycles s + cycleCost (s, t) i := by
  obtain ⟨q, hholds, _⟩ := hpushed
  have hrst' : (s.regsliceIn i).apRst = false := by simp [regsliceIn, hrst]
  have hvalid : (s.regsliceIn i).vldIn = false := by simp [regsliceIn, resTvalidInt, accept, hfsm]
  have hnow : remainingCycles s = s.res.drainCycles := by simp only [remainingCycles, hfsm]
  by_cases hblock : s.apBlockState3 i = true
  · have hfsm' : (s.step i).1.apCsFsm = .state3 := by simp [BypassHwRtl.step, hrst, apNsFsm, hfsm, hblock]
    have hthen : remainingCycles (s.step i).1 = (s.res.step (s.regsliceIn i)).1.drainCycles := by
      simp only [remainingCycles, hfsm']
      rfl
    have hwait : s.res.data.apdoneBlk i.resTready = true ∨ s.res.data.ackInT = false := by
      simp only [apBlockState3, resTreadyInt] at hblock
      grind
    have hdrain : (s.res.step (s.regsliceIn i)).1.drainCycles + 1 ≤
        s.res.drainCycles + if stalled (s, t) i then 1 else 0 := hholds.drain hrst' hvalid hwait
    rw [hthen, hnow]
    unfold cycleCost Mealy.callCost
    omega
  · have hfsm' : (s.step i).1.apCsFsm = .state1 := by simp [BypassHwRtl.step, hrst, apNsFsm, hfsm, hblock]
    have hblock' : s.apBlockState3 i = false := by simpa using hblock
    have hempty : (s.step i).1.res.Holds [] :=
      (hholds.drained hrst' hvalid (Bool.or_eq_false_iff.mp hblock').2).1
    have hready : (s.step i).1.resTreadyInt = true := by simp [resTreadyInt, hempty.ackIn]
    have hpos := s.res.drainCycles_pos
    simp only [remainingCycles, hfsm', hready, if_true, hfsm]
    omega

theorem remainingCycles_step (h : Inv s t) (hrst : i.apRstN = true) :
    remainingCycles (s.step i).1 + 1 ≤ remainingCycles s + cycleCost (s, t) i := by
  cases h with
  | state1 h => exact remainingCycles_state1 h hrst
  | state2 args hfsm _ hpushed => exact remainingCycles_state2 hfsm hpushed hrst
  | state3 args hfsm _ hpushed => exact remainingCycles_state3 hfsm hpushed hrst

end Cycles

theorem remainingCycles_le (s : BypassHwRtl) : remainingCycles s ≤ if s.apCsFsm = .state1 then 1 else 2 := by
  unfold remainingCycles
  cases hfsm : s.apCsFsm with
  | state1 =>
    simp only [if_true]
    split_ifs <;> omega
  | state2 => exact Nat.le_refl 2
  | state3 => exact s.res.drainCycles_le

/-- **How long a run takes.** In any window of a run after the reset, every cycle is one of the three of a call,
one in which the core waits for samples in state 1, or one in which the sink does not take a beat, but for the
dead cycle of the stream port, or two of a call that is under way when the window begins. -/
theorem bypassHw_rtl_progress (s : BypassHwRtl) (hs : PowerOn s) {r : BypassCycle} (hr : r.apRstN = false)
    (hidle : noPair r = true) {before is : List BypassCycle} (hbefore : ∀ i ∈ before, i.apRstN = true)
    (his : ∀ i ∈ is, i.apRstN = true) :
    let p := Mealy.runState stepTraced ((s.step r).1, empty) before
    is.length ≤ (if p.1.apCsFsm = .state1 then 1 else 2) +
      3 * (Mealy.collect stepTraced acceptedPair p is).length +
      Mealy.count stepTraced starved p is + Mealy.count stepTraced stalled p is := by
  intro p
  have hinv : Inv p.1 p.2 := Mealy.invariant_run stepTraced (I := fun p => Inv p.1 p.2)
    (fun p i h hi => h.step hi) (s := ((s.step r).1, empty)) (.state1 (hs.reset hr hidle)) hbefore
  have hrun := Mealy.length_le_of_potential stepTraced cycleCost (fun p => remainingCycles p.1)
    (I := fun p => Inv p.1 p.2) (P := fun i => i.apRstN = true) (fun p i h hi => h.step hi)
    (fun p i h hi => remainingCycles_step h hi) hinv his
  have hfirst := remainingCycles_le p.1
  rw [cycleCost, Mealy.total_callCost, Mealy.total_mul_length] at hrun
  omega

theorem bypassHw_rtl_progress_ready :
    let p := Mealy.runState stepTraced ((initial.step (readyCycle false 0 0)).1, empty) readyRun
    readyRun.length ≤ (if p.1.apCsFsm = .state1 then 1 else 2) +
      3 * (Mealy.collect stepTraced acceptedPair p readyRun).length +
      Mealy.count stepTraced starved p readyRun + Mealy.count stepTraced stalled p readyRun :=
  bypassHw_rtl_progress initial initial_powerOn rfl rfl (by simp [readyRun, readyCycle])
    (by simp [readyRun, readyCycle])

end BypassHwRtl

end FpgaLabor
