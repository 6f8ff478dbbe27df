import FpgaLabor.Rtl.FirHwPhases

/-!
# Runs of `fir_hw.v`

`firHw_rtl_refines` says that after a reset the generated core runs as the source function, under any timing
of the samples, of the sink and of the bus. `firHw_rtl_progress` bounds the length of any window of a run by what
its calls take and by the cycles in which the core has nothing to do or its sink does not take a beat.
-/

namespace FpgaLabor.FirHwRtl

open CallTrace (empty)

theorem PowerOn.reset {s : FirHwRtl} (hs : PowerOn s) {r : FirCycle} (hr : r.apRstN = false)
    (hidle : apBlockState1 r = true) : Ready (s.step r).1 empty := by
  have haccept : s.accept r = false := by simp [accept, hidle]
  have hend : s.endCall r = false := endCall_of_ne (by simp [hs.fsm])
  have hstatics : statics empty = FirHwState.initial := rfl
  have hzero : ∀ m : BufferRam, m.ram = (fun _ => 0) → m.samples = fun _ => 0 := by
    intro m hm
    funext k
    simp only [BufferRam.samples, hm]
    rfl
  constructor
  · simp [FirHwRtl.step, hr]
  · rfl
  · exact (samples_bufferStep haccept).trans (hzero _ hs.bufferLeft)
  · exact (samples_bufferStep haccept).trans (hzero _ hs.bufferRight)
  · simp [FirHwRtl.step, hend, hs.writeIdx, hstatics, FirHwState.initial]
  · simp [FirHwRtl.step, hend, hs.decCnt, hstatics, FirHwState.initial]
  · simp [FirHwRtl.step, haccept, hs.cnt, hstatics, FirHwState.initial]
  · exact FirPipeline.idle_of_reset (by simp [loopIn, hr])
  · simp [FirHwRtl.step, hr]
  · exact .inl (AxisSlices.afterReset_step _ (by simp [regsliceIn, hr]))
  · rfl

/-- The pair of samples of a call. -/
def samplesOf (args : FirHwArgs) : DinT × DinT := (args.inputL, args.inputR)

/-- The pair of samples handed over in a cycle. -/
def acceptedPair (p : FirHwRtl × CallTrace FirHwArgs AxisType) (i : FirCycle) : List (DinT × DinT) :=
  if p.1.accept i then [(⟨i.inputL⟩, ⟨i.inputR⟩)] else []

section Runs

variable {s : FirHwRtl} {t : CallTrace FirHwArgs AxisType} {i : FirCycle}

theorem Inv.agrees (h : Inv s t) : t.Agrees firHw FirHwState.initial := by
  cases h with
  | state1 h => exact CallTrace.agrees_of_none h.current h.delivered
  | state2 args _ h | state3 args _ h | state4 args _ h => exact h.pushed.agrees h.current (List.nil_append _)
  | state5 args _ h _ _ _ hpushed => exact hpushed.agrees h.current (List.take_append_drop 1 _)
  | state6 args _ h _ _ hpushed => exact hpushed.agrees h.current (List.append_nil _)

theorem Inv.ready_of_state1 (h : Inv s t) (hfsm : s.apCsFsm = .state1) : Ready s t := by
  cases h with
  | state1 h => exact h
  | state2 _ h | state3 _ h | state4 _ h | state5 _ h | state6 _ h => simp [hfsm] at h

/-- The core makes the calls of the source function: one begins in state 1 and ends in state 6. -/
theorem callMachine : CallTrace.CallMachine FirHwRtl.step FirHwRtl.event firHw FirHwState.initial samplesOf
    acceptedPair (fun s => s.apCsFsm = .state1) (fun i => i.apRstN = true) Inv where
  keeps h hi := h.step hi
  agrees h := h.agrees
  rests h hfsm := (h.ready_of_state1 hfsm).current
  begins := by
    intro s i hbegins
    have hfsm : s.apCsFsm = .state1 := by
      by_contra hne
      simp [event, accept_of_ne hne] at hbegins
    exact ⟨hfsm, endCall_of_ne (by simp [hfsm])⟩
  completes := by
    intro s i args
    unfold event nextArgs
    split_ifs <;> rfl
  takes := by
    intro s t i
    by_cases haccept : s.accept i = true <;> simp [event, acceptedPair, haccept, samplesOf, callArgs]

theorem Ready.runsAs (h : Ready s empty) {is : List FirCycle} (his : ∀ i ∈ is, i.apRstN = true) :
    CallTrace.RunsAs firHw FirHwState.initial samplesOf (Mealy.runState stepTraced (s, empty) is).2
      (Mealy.collect stepTraced acceptedPair (s, empty) is)
      ((Mealy.runState stepTraced (s, empty) is).1.apCsFsm = .state1) :=
  callMachine.runsAs (.state1 h) his

theorem Ready.delivered_of_idle (h : Ready s empty) {is : List FirCycle} (his : ∀ i ∈ is, i.apRstN = true)
    (hidle : ∀ i ∈ is, apBlockState1 i = true) : (Mealy.runState stepTraced (s, empty) is).2.delivered = [] := by
  have hruns := h.runsAs his
  have hnone : Mealy.collect stepTraced acceptedPair (s, empty) is = [] := by
    apply Mealy.collect_eq_nil
    intro p i hi
    simp [acceptedPair, accept, hidle i hi]
  have hcalls := List.map_eq_nil_iff.mp (hruns.inputs.trans hnone)
  have hproduced := hruns.produced
  rw [hcalls] at hproduced
  exact List.prefix_nil.mp hproduced

end Runs

/-- **The generated core is the source function.** From power-on, after a reset in which no samples are
offered, whatever the timing of the samples, of the sink and of the bus: the calls take the pairs of
samples that are handed over, in order, and the beats that have left the core are those of the source on
these calls, all but what the call under way still owes. -/
theorem firHw_rtl_refines (s : FirHwRtl) (hs : PowerOn s) {r : FirCycle} (hr : r.apRstN = false)
    (hidle : apBlockState1 r = true) {is : List FirCycle} (his : ∀ i ∈ is, i.apRstN = true) :
    CallTrace.RunsAs firHw FirHwState.initial samplesOf
      (Mealy.runState stepTraced ((s.step r).1, empty) is).2
      (Mealy.collect stepTraced acceptedPair ((s.step r).1, empty) is)
      ((Mealy.runState stepTraced ((s.step r).1, empty) is).1.apCsFsm = .state1) :=
  (hs.reset hr hidle).runsAs his

/-- The registers at power-on, the others cleared. -/
def initial : FirHwRtl where
  apCsFsm := .state1
  writeIdx := 0
  decCnt := 0
  cnt := 0
  icmpLn26Reg := false
  tapNumM1ReadReg := 0
  outDataLastReg := false
  outDataLast1Reg := false
  addLn32Reg := 0
  decCntNew0Reg := 0
  apStartReg := false
  bufferLeft := ⟨fun _ => 0, 0⟩
  bufferRight := ⟨fun _ => 0, 0⟩
  loop := ⟨.pp0Stage0, false, false, 0, 0, 0, 0, 0, false, 0, 0, false, true, false⟩
  res := AxisSlices.initial
  control := ControlSAxi.initial

theorem initial_powerOn : PowerOn initial := ⟨rfl, rfl, rfl, rfl, rfl, rfl, rfl⟩

/-- A cycle in which both sides of the core are ready and all channels of its bus are busy. -/
def readyCycle (apRstN : Bool) (inputL inputR : BitVec 24) : FirCycle where
  apRstN := apRstN
  inputL := inputL
  inputLApVld := apRstN
  inputR := inputR
  inputRApVld := apRstN
  resTready := true
  bus := ControlSAxi.busyCycle (!apRstN) 0x010 256
  undefP0 := 0
  undefP1 := 0
  undefBeat := ⟨0, 0, false⟩

/-- Twenty cycles after a reset. -/
def readyRun : List FirCycle := List.replicate 20 (readyCycle true 3 5)

theorem firHw_rtl_refines_ready :
    CallTrace.RunsAs firHw FirHwState.initial samplesOf
      (Mealy.runState stepTraced ((initial.step (readyCycle false 0 0)).1, empty) readyRun).2
      (Mealy.collect stepTraced acceptedPair ((initial.step (readyCycle false 0 0)).1, empty) readyRun)
      ((Mealy.runState stepTraced ((initial.step (readyCycle false 0 0)).1, empty) readyRun).1.apCsFsm =
        .state1) :=
  firHw_rtl_refines initial initial_powerOn rfl rfl (by simp [readyRun, readyCycle])

/-! ### How long a run takes -/

/-- The cycles of a call that begins in the cycle: two for each tap and eight more, or two if the sample is
only stored. -/
def callCycles (s : FirHwRtl) (i : FirCycle) : ℕ :=
  if s.accept i then (if s.icmpLn26 then 2 else 2 * s.control.intTapNumM1.toNat + 8) else 0

/-- The cycles that the loop still takes. -/
def loopCycles (s : FirHwRtl) : ℕ :=
  let addressed := if s.loop.stage0 && s.loop.apLoopInitInt then 0 else s.loop.i.toNat
  2 * (s.tapNumM1ReadReg.toNat + 1 - addressed) + if s.loop.stage0 then 1 else 2

/-- The cycles that the call under way still takes, but for those in which the sink is not ready. -/
def remainingCycles (s : FirHwRtl) : ℕ :=
  match s.apCsFsm with
  | .state1 => 0
  | .state2 => 2 * s.tapNumM1ReadReg.toNat + 7
  | .state3 => s.loopCycles + 3
  | .state4 => 3
  | .state5 => 2
  | .state6 => s.res.drainCycles

theorem remainingCycles_le (s : FirHwRtl) : remainingCycles s ≤ 1029 := by
  have htap := s.tapNumM1ReadReg.isLt
  unfold remainingCycles
  split
  · omega
  · omega
  · rw [loopCycles]
    split_ifs <;> omega
  · omega
  · omega
  · exact s.res.drainCycles_le.trans (by omega)

/-- A cycle of state 1 without a pair of samples. -/
def starved (p : FirHwRtl × CallTrace FirHwArgs AxisType) (i : FirCycle) : Bool :=
  p.1.apCsFsm == .state1 && apBlockState1 i

/-- A cycle with a beat on the stream port that the sink does not take. -/
def stalled (p : FirHwRtl × CallTrace FirHwArgs AxisType) (i : FirCycle) : Bool := p.1.res.stalled i.resTready

/-- What a cycle costs: the call that begins in it, and the cycle itself if the core is starved or stalled. -/
def cycleCost : FirHwRtl × CallTrace FirHwArgs AxisType → FirCycle → ℕ :=
  Mealy.callCost (fun p i => callCycles p.1 i) starved stalled

section Cycles

variable {s : FirHwRtl} {t : CallTrace FirHwArgs AxisType} {i : FirCycle} {args : FirHwArgs} {n : ℕ}

theorem loopCycles_start (hloop : s.loop.Idle) : s.loopCycles = 2 * s.tapNumM1ReadReg.toNat + 3 := by
  have hstage : s.loop.stage0 = true := by simp [FirPipeline.stage0, hloop.fsm]
  simp [loopCycles, hstage, hloop.init]
  omega

theorem loopCycles_atTap {j : LoopJob} (hn : n < 512) (hloop : s.loop.AtTap j n) :
    s.loopCycles = 2 * (s.tapNumM1ReadReg.toNat - n) + 1 := by
  have hstage : s.loop.stage0 = true := by simp [FirPipeline.stage0, hloop.fsm]
  have hi : s.loop.i.toNat = n + 1 := by
    rw [hloop.i, BitVec.toNat_ofNat, Nat.mod_eq_of_lt (by omega)]
  simp [loopCycles, hstage, hloop.init, hi]

theorem loopCycles_midTap {j : LoopJob} (hn : n < 512) (hloop : s.loop.MidTap j n) :
    s.loopCycles = 2 * (s.tapNumM1ReadReg.toNat - n) + 2 := by
  have hstage : s.loop.stage0 = false := by simp [FirPipeline.stage0, hloop.fsm]
  have hi : s.loop.i.toNat = n + 1 := by
    rw [hloop.i, BitVec.toNat_ofNat, Nat.mod_eq_of_lt (by omega)]
  simp [loopCycles, hstage, hi]

theorem remainingCycles_state1 (h : Ready s t) (hrst : i.apRstN = true) :
    remainingCycles (s.step i).1 + 1 ≤ remainingCycles s + cycleCost (s, t) i := by
  by_cases haccept : s.accept i = true
  · have htap : (s.step i).1.tapNumM1ReadReg = s.control.intTapNumM1 := by simp [FirHwRtl.step, h.fsm]
    by_cases hicmp : s.icmpLn26 = true
    · have hfsm : (s.step i).1.apCsFsm = .state6 := by
        simp [FirHwRtl.step, hrst, apNsFsm, h.fsm, haccept, hicmp]
      have hpush : s.resTvalidInt = false := resTvalidInt_of_ne (by simp [h.fsm]) (by simp [h.fsm])
      have hholds : (s.step i).1.res.Holds [] :=
        (AxisSlices.step_quiet h.res (i := s.regsliceIn i) (by simp [regsliceIn, hrst]) hpush).1
      have hdrain : (s.step i).1.res.drainCycles = 1 := hholds.drainCycles_eq
      simp only [remainingCycles, hfsm, hdrain, cycleCost, Mealy.callCost, callCycles, haccept, hicmp, if_true]
      omega
    · have hicmp' : s.icmpLn26 = false := by simpa using hicmp
      have hfsm : (s.step i).1.apCsFsm = .state2 := by
        simp [FirHwRtl.step, hrst, apNsFsm, h.fsm, haccept, hicmp']
      simp only [remainingCycles, hfsm, htap, h.fsm, cycleCost, Mealy.callCost, callCycles, haccept, hicmp', if_true,
        Bool.false_eq_true, if_false]
      omega
  · have hfsm : (s.step i).1.apCsFsm = .state1 := by simp [FirHwRtl.step, hrst, apNsFsm, h.fsm, haccept]
    have hstarved : starved (s, t) i = true := by simpa [starved, accept, h.fsm] using haccept
    simp only [remainingCycles, hfsm, h.fsm, cycleCost, Mealy.callCost, hstarved, if_true]
    omega

theorem remainingCycles_state3 (hfsm : s.apCsFsm = .state3) (h : Quiet s t args) (hloop : InLoop s t args)
    (hstart : s.apStartReg = true) (hlen : s.addLn32Reg = BitVec.ofNat 10 (args.tapNumM1.toNat + 1))
    (hrst : i.apRstN = true) : remainingCycles (s.step i).1 + 1 ≤ remainingCycles s := by
  have hlt := args.tapNumM1.isLt
  have htap := h.tap
  have htap' : (s.step i).1.tapNumM1ReadReg = args.tapNumM1 := by simp [FirHwRtl.step, hfsm, htap]
  have hnow : remainingCycles s = s.loopCycles + 3 := by simp [remainingCycles, hfsm]
  have hstay : s.loop.apDone (s.loopIn i) = false →
      remainingCycles (s.step i).1 = (s.step i).1.loopCycles + 3 := by
    intro hdone
    simp [remainingCycles, FirHwRtl.step, hrst, apNsFsm, hfsm, hdone]
  rcases hloop.cases hstart hlen hrst with ⟨n, hn, hreads, hmid, hwas⟩ | ⟨n, hn, hmid, _, hdone, _, hat⟩ |
    ⟨hat, _, hdone, _⟩
  · rw [hstay hreads.done, hnow, loopCycles_midTap (by omega) hmid, htap']
    rcases hwas with ⟨hidle, rfl⟩ | ⟨m, rfl, hat⟩
    · rw [loopCycles_start hidle, htap]
      omega
    · rw [loopCycles_atTap (by omega) hat, htap]
      omega
  · rw [hstay hdone, hnow, loopCycles_midTap (by omega) hmid, loopCycles_atTap (by omega) hat, htap, htap']
  · have hexit : remainingCycles (s.step i).1 = 3 := by
      simp [remainingCycles, FirHwRtl.step, hrst, apNsFsm, hfsm, hdone]
    rw [hexit, hnow, loopCycles_atTap (by omega) hat]
    omega

theorem remainingCycles_state6 (hfsm : s.apCsFsm = .state6) {q : List AxisType} (hholds : s.res.Holds q)
    (hrst : i.apRstN = true) :
    remainingCycles (s.step i).1 + 1 ≤ remainingCycles s + cycleCost (s, t) i := by
  have hnow : remainingCycles s = s.res.drainCycles := by simp only [remainingCycles, hfsm]
  by_cases hblock : s.apBlockState6 i = true
  · have hfsm' : (s.step i).1.apCsFsm = .state6 := by simp [FirHwRtl.step, hrst, apNsFsm, hfsm, hblock]
    have hthen : remainingCycles (s.step i).1 = (s.res.step (s.regsliceIn i)).1.drainCycles := by
      simp only [remainingCycles, hfsm']
      rfl
    have hwait : s.res.data.apdoneBlk i.resTready = true ∨ s.res.data.ackInT = false := by
      simp only [apBlockState6, resTreadyInt] at hblock
      grind
    have hdrain : (s.res.step (s.regsliceIn i)).1.drainCycles + 1 ≤
        s.res.drainCycles + if stalled (s, t) i then 1 else 0 :=
      hholds.drain (by simp [regsliceIn, hrst]) (by simp [regsliceIn, resTvalidInt, hfsm]) hwait
    rw [hthen, hnow]
    unfold cycleCost Mealy.callCost
    omega
  · have hfsm' : (s.step i).1.apCsFsm = .state1 := by simp [FirHwRtl.step, hrst, apNsFsm, hfsm, hblock]
    have hzero : remainingCycles (s.step i).1 = 0 := by simp [remainingCycles, hfsm']
    have hpos := s.res.drainCycles_pos
    rw [hzero, hnow]
    omega

theorem remainingCycles_step (h : Inv s t) (hrst : i.apRstN = true) :
    remainingCycles (s.step i).1 + 1 ≤ remainingCycles s + cycleCost (s, t) i := by
  cases h with
  | state1 h => exact remainingCycles_state1 h hrst
  | state2 args hfsm h hloop hstart =>
    have hfsm' : (s.step i).1.apCsFsm = .state3 := by simp [FirHwRtl.step, hrst, apNsFsm, hfsm]
    have htap : (s.step i).1.tapNumM1ReadReg = s.tapNumM1ReadReg := by simp [FirHwRtl.step, hfsm]
    have hidle := (loop_idle (i := i) hloop hstart).2.2.1
    simp only [remainingCycles, hfsm, hfsm', loopCycles_start hidle, htap]
    omega
  | state3 args hfsm h hloop hstart hlen =>
    exact (remainingCycles_state3 hfsm h hloop hstart hlen hrst).trans (Nat.le_add_right _ _)
  | state4 args hfsm h =>
    have hready : s.resTreadyInt = true := h.pushed.ackIn (by simp)
    have hfsm' : (s.step i).1.apCsFsm = .state5 := by simp [FirHwRtl.step, hrst, apNsFsm, hfsm, hready]
    simp only [remainingCycles, hfsm, hfsm']
    omega
  | state5 args hfsm h hemits hloop hstart hpushed =>
    have hready : s.resTreadyInt = true := hpushed.ackIn (List.length_take_le 1 _)
    obtain ⟨q, hholds, hlen⟩ := hpushed.holds
    have hfsm' : (s.step i).1.apCsFsm = .state6 := by simp [FirHwRtl.step, hrst, apNsFsm, hfsm, hready]
    have hdrain : (s.res.step (s.regsliceIn i)).1.drainCycles ≤ 1 + if stalled (s, t) i then 1 else 0 :=
      hholds.drain_push (hlen.trans (List.length_take_le 1 _)) (by simp [regsliceIn, hrst])
    have hthen : remainingCycles (s.step i).1 = (s.res.step (s.regsliceIn i)).1.drainCycles := by
      simp only [remainingCycles, hfsm']
      rfl
    have hnow : remainingCycles s = 2 := by simp only [remainingCycles, hfsm]
    rw [hthen, hnow]
    unfold cycleCost Mealy.callCost
    omega
  | state6 args hfsm h hloop hstart hpushed =>
    obtain ⟨q, hholds, _⟩ := hpushed
    exact remainingCycles_state6 hfsm hholds hrst

end Cycles

/-- **How long a run takes.** In any window of a run after the reset, every cycle is one of the
`2 * tap_num_m1 + 8` of a call that emits, one of the two of a call that does not, one in which the core waits
for samples in state 1, or one in which the sink does not take a beat, but for those of a call that is under
way when the window begins: the core never waits for anything else. -/
theorem firHw_rtl_progress (s : FirHwRtl) (hs : PowerOn s) {r : FirCycle} (hr : r.apRstN = false)
    (hidle : apBlockState1 r = true) {before is : List FirCycle} (hbefore : ∀ i ∈ before, i.apRstN = true)
    (his : ∀ i ∈ is, i.apRstN = true) :
    let p := Mealy.runState stepTraced ((s.step r).1, empty) before
    is.length ≤ (if p.1.apCsFsm = .state1 then 0 else 1029) +
      Mealy.total stepTraced (fun p i => callCycles p.1 i) p is +
      Mealy.count stepTraced starved p is + Mealy.count stepTraced stalled p is := by
  intro p
  have hready := hs.reset hr hidle
  have hinv : Inv p.1 p.2 := Mealy.invariant_run stepTraced (I := fun p => Inv p.1 p.2)
    (fun p i h hi => h.step hi) (s := ((s.step r).1, empty)) (.state1 hready) hbefore
  have hrun := Mealy.length_le_of_potential stepTraced cycleCost (fun p => remainingCycles p.1)
    (I := fun p => Inv p.1 p.2) (P := fun i => i.apRstN = true) (fun p i h hi => h.step hi)
    (fun p i h hi => remainingCycles_step h hi) hinv his
  have hfirst : remainingCycles p.1 ≤ if p.1.apCsFsm = .state1 then 0 else 1029 := by
    by_cases hfsm : p.1.apCsFsm = .state1
    · simp [remainingCycles, hfsm]
    · simpa [hfsm] using remainingCycles_le p.1
  rw [cycleCost, Mealy.total_callCost] at hrun
  omega

theorem firHw_rtl_progress_ready :
    let p := Mealy.runState stepTraced ((initial.step (readyCycle false 0 0)).1, empty) readyRun
    readyRun.length ≤ (if p.1.apCsFsm = .state1 then 0 else 1029) +
      Mealy.total stepTraced (fun p i => callCycles p.1 i) p readyRun +
      Mealy.count stepTraced starved p readyRun + Mealy.count stepTraced stalled p readyRun :=
  firHw_rtl_progress initial initial_powerOn rfl rfl (by simp [readyRun, readyCycle])
    (by simp [readyRun, readyCycle])

end FpgaLabor.FirHwRtl
