import FpgaLabor.Rtl.FirHwRtl

/-!
# The phases of a call of `fir_hw.v`

`Inv` says for each state of the state machine how the registers stand to the static variables and the call
of the source: what state 1 has stored (`Taken`), where the loop is (`InLoop`), which words of the call have
been handed to the stream port (`AxisSlices.Pushed`). Every clock edge without a reset keeps it (`Inv.step`),
one lemma for each state.
-/

namespace FpgaLabor.FirHwRtl

open PacketCounter (bump hit)

/-- The static variables of the source when the call under way began. -/
def statics (t : CallTrace FirHwArgs AxisType) : FirHwState :=
  CallTrace.statics firHw FirHwState.initial t.finished

/-- Between two calls: the registers are the static variables, and every beat has left the core. -/
structure Ready (s : FirHwRtl) (t : CallTrace FirHwArgs AxisType) : Prop where
  fsm : s.apCsFsm = .state1
  current : t.current = none
  bufferLeft : s.bufferLeft.samples = (statics t).bufferLeft
  bufferRight : s.bufferRight.samples = (statics t).bufferRight
  writeIdx : s.writeIdx = (statics t).writeIdx
  decCnt : s.decCnt = (statics t).decCnt
  cnt : s.cnt = (statics t).cnt
  loop : s.loop.Idle
  start : s.apStartReg = false
  res : s.res.AfterReset ∨ s.res.Holds []
  delivered : t.delivered = CallTrace.emitted firHw FirHwState.initial t.finished

/-- In a call: what state 1 has stored of the samples and the register arguments. -/
structure Taken (s : FirHwRtl) (t : CallTrace FirHwArgs AxisType) (args : FirHwArgs) : Prop where
  current : t.current = some args
  bufferLeft : s.bufferLeft.samples = (firHw (statics t) args).1.bufferLeft
  bufferRight : s.bufferRight.samples = (firHw (statics t) args).1.bufferRight
  writeIdx : s.writeIdx = (statics t).writeIdx
  cnt : s.cnt = (firHw (statics t) args).1.cnt
  icmp : s.icmpLn26Reg = !decide (Emits (statics t) args)
  decCnt : s.icmpLn26Reg = true → s.decCntNew0Reg = (statics t).decCnt + 1
  tap : s.tapNumM1ReadReg = args.tapNumM1
  last : s.outDataLastReg = hit args.tlastDnum (statics t).cnt
  last1 : s.outDataLast1Reg = hit args.tlastDnum (bump args.tlastDnum (statics t).cnt)

/-- What the loop works on in a call. -/
def job (t : CallTrace FirHwArgs AxisType) (args : FirHwArgs) : LoopJob where
  tapNumM1 := args.tapNumM1
  writeIdx := (statics t).writeIdx
  bufferLeft := (firHw (statics t) args).1.bufferLeft
  bufferRight := (firHw (statics t) args).1.bufferRight
  coeffHw := args.coeffHw

/-- In a call that emits, before its first word. -/
structure Quiet (s : FirHwRtl) (t : CallTrace FirHwArgs AxisType) (args : FirHwArgs) : Prop
    extends Taken s t args where
  emits : Emits (statics t) args
  pushed : s.res.Pushed firHw FirHwState.initial t []

/-- In the loop: about to start it, about to address tap `n + 1` or to leave, or with the words of tap `n`
at the memory ports. -/
inductive InLoop (s : FirHwRtl) (t : CallTrace FirHwArgs AxisType) (args : FirHwArgs) : Prop
  | start (h : s.loop.Idle)
  | atTap (n : ℕ) (hn : n ≤ args.tapNumM1.toNat) (h : s.loop.AtTap (job t args) n)
  | midTap (n : ℕ) (hn : n ≤ args.tapNumM1.toNat) (h : s.loop.MidTap (job t args) n)
      (hcoeff : s.control.q0 = ((job t args).coeffHw (BitVec.ofNat 9 n)).V)
      (hleft : s.bufferLeft.q0 = ((job t args).bufferLeft ((job t args).writeIdx - BitVec.ofNat 9 n)).V)
      (hright : s.bufferRight.q0 = ((job t args).bufferRight ((job t args).writeIdx - BitVec.ofNat 9 n)).V)

/-- What holds in each state of a run without a reset. -/
inductive Inv (s : FirHwRtl) (t : CallTrace FirHwArgs AxisType) : Prop
  | state1 (h : Ready s t)
  | state2 (args : FirHwArgs) (hfsm : s.apCsFsm = .state2) (h : Quiet s t args) (hloop : s.loop.Idle)
      (hstart : s.apStartReg = false)
  | state3 (args : FirHwArgs) (hfsm : s.apCsFsm = .state3) (h : Quiet s t args) (hloop : InLoop s t args)
      (hstart : s.apStartReg = true) (hlen : s.addLn32Reg = BitVec.ofNat 10 (args.tapNumM1.toNat + 1))
  | state4 (args : FirHwArgs) (hfsm : s.apCsFsm = .state4) (h : Quiet s t args)
      (hloop : s.loop.Finished (job t args)) (hstart : s.apStartReg = false)
  | state5 (args : FirHwArgs) (hfsm : s.apCsFsm = .state5) (h : Taken s t args)
      (hemits : Emits (statics t) args) (hloop : s.loop.Finished (job t args))
      (hstart : s.apStartReg = false)
      (hpushed : s.res.Pushed firHw FirHwState.initial t ((firHw (statics t) args).2.take 1))
  | state6 (args : FirHwArgs) (hfsm : s.apCsFsm = .state6) (h : Taken s t args) (hloop : s.loop.Idle)
      (hstart : s.apStartReg = false) (hpushed : s.res.Pushed firHw FirHwState.initial t (firHw (statics t) args).2)

/-! ### From one state to the next -/

section Steps

variable {s : FirHwRtl} {t : CallTrace FirHwArgs AxisType} {i : FirCycle} {args : FirHwArgs}

theorem emits_iff (S : FirHwState) (args : FirHwArgs) :
    Emits S args ↔ ¬ S.decCnt + 1 < args.smplRdNum := BitVec.not_lt.symm

theorem outDataLast_eq {S : FirHwState} (hcnt : s.cnt = S.cnt) :
    s.outDataLast = hit s.control.intTlastDnum S.cnt ∧
      s.outDataLast1 = hit s.control.intTlastDnum (bump s.control.intTlastDnum S.cnt) ∧
      s.selectLn60 = bump s.control.intTlastDnum (bump s.control.intTlastDnum S.cnt) := by
  have hlast : s.outDataLast = hit s.control.intTlastDnum S.cnt := by simp [outDataLast, hit, hcnt]
  have hselect : s.selectLn54 = bump s.control.intTlastDnum S.cnt + 1 := by
    rw [selectLn54, hlast, hcnt]
    exact PacketCounter.ite_hit s.control.intTlastDnum S.cnt
  have hlast1 : s.outDataLast1 = hit s.control.intTlastDnum (bump s.control.intTlastDnum S.cnt) := by
    rw [outDataLast1, hselect, hit]
  refine ⟨hlast, hlast1, ?_⟩
  rw [selectLn60, hlast1, hselect]
  rfl

theorem firHw_fst (S : FirHwState) (args : FirHwArgs) :
    (firHw S args).1 =
      { bufferLeft := Function.update S.bufferLeft S.writeIdx args.inputL
        bufferRight := Function.update S.bufferRight S.writeIdx args.inputR
        writeIdx := S.writeIdx + 1
        cnt := if Emits S args then bump args.tlastDnum (bump args.tlastDnum S.cnt) else S.cnt
        decCnt := if Emits S args then 0 else S.decCnt + 1 } := by
  rw [← firHw_bufferLeft, ← firHw_bufferRight, ← firHw_writeIdx S args]
  rcases firHw_cases S args with ⟨hemits, _, hcnt, hdec⟩ | ⟨hemits, _, hcnt, hdec⟩
  · rw [if_pos hemits, if_pos hemits, ← hcnt, ← hdec]
  · rw [if_neg hemits, if_neg hemits, ← hcnt, ← hdec]

theorem firHw_readCoeff (S : FirHwState) (s : FirHwRtl) (addr : BitVec 9) (args : FirHwArgs) :
    (firHw S (s.readCoeff addr args)).1 = (firHw S args).1 := by
  rw [firHw_fst, firHw_fst]
  rfl

theorem firHw_nextArgs (S : FirHwState) : (firHw S (s.nextArgs i args)).1 = (firHw S args).1 := by
  unfold nextArgs
  split_ifs
  · exact firHw_readCoeff S s _ args
  · rfl

theorem nextArgs_fields (args : FirHwArgs) : (s.nextArgs i args).tlastDnum = args.tlastDnum ∧
    (s.nextArgs i args).smplRdNum = args.smplRdNum ∧ (s.nextArgs i args).tapNumM1 = args.tapNumM1 := by
  unfold nextArgs
  split_ifs <;> exact ⟨rfl, rfl, rfl⟩

theorem accept_of_ne (h : s.apCsFsm ≠ .state1) : s.accept i = false := by simp [accept, h]

theorem endCall_of_ne (h : s.apCsFsm ≠ .state6) : s.endCall i = false := by simp [endCall, h]

theorem samples_bufferStep {m : BufferRam} {d0 : BitVec 24} (h : s.accept i = false) :
    (s.bufferStep i m d0).samples = m.samples := by
  have hram : (s.bufferStep i m d0).ram = m.ram := by simp [bufferStep, BufferRam.step, h]
  funext k
  simp [BufferRam.samples, hram]

theorem samples_bufferStep_accept {m : BufferRam} {d0 : BitVec 24} (h : s.accept i = true)
    (hfsm : s.apCsFsm = .state1) :
    (s.bufferStep i m d0).samples = Function.update m.samples s.writeIdx ⟨d0⟩ := by
  have hram : (s.bufferStep i m d0).ram = Function.update m.ram s.writeIdx d0 := by
    simp [bufferStep, BufferRam.step, h, hfsm]
  funext k
  simp only [BufferRam.samples, hram, Function.update_apply]
  split_ifs <;> rfl

theorem Taken.step (h : Taken s t args) (hfsm : s.apCsFsm ≠ .state1) (hend : s.endCall i = false) :
    Taken (s.step i).1 (t.record (s.event i)) (s.nextArgs i args) := by
  have haccept := accept_of_ne (i := i) hfsm
  obtain ⟨hlast, hsmpl, htap⟩ := nextArgs_fields (s := s) (i := i) args
  have hfin : statics (t.record (s.event i)) = statics t := CallTrace.statics_record hend
  have hemits : ∀ S, Emits S (s.nextArgs i args) ↔ Emits S args := by simp [Emits, hsmpl]
  constructor
  · simp [CallTrace.record, event, haccept, hend, h.current]
  · rw [hfin, firHw_nextArgs, ← h.bufferLeft]
    exact samples_bufferStep haccept
  · rw [hfin, firHw_nextArgs, ← h.bufferRight]
    exact samples_bufferStep haccept
  · simp [FirHwRtl.step, hfin, hend, h.writeIdx]
  · simp [FirHwRtl.step, hfin, haccept, h.cnt, firHw_nextArgs]
  · simp [FirHwRtl.step, hfsm, hfin, h.icmp, hemits]
  · simpa [FirHwRtl.step, hfsm, hfin, haccept, hend] using h.decCnt
  · simp [FirHwRtl.step, hfsm, h.tap, htap]
  · simp [FirHwRtl.step, hfsm, hfin, h.last, hlast]
  · simp [FirHwRtl.step, hfsm, hfin, h.last1, hlast]

theorem ready_of_vld (h : (s.regsliceIn i).vldIn = true) : s.res.data.ackInT = true :=
  (Bool.and_eq_true_iff.mp h).1

theorem pushed_of_not_valid (h : s.resTvalidInt = false) : AxisSlices.pushed (s.regsliceIn i) = [] := by
  simp [AxisSlices.pushed, regsliceIn, h]

theorem pushed_step {words : List AxisType} (h : s.res.Pushed firHw FirHwState.initial t words)
    (hrst : i.apRstN = true) (hend : s.endCall i = false) :
    (s.step i).1.res.Pushed firHw FirHwState.initial (t.record (s.event i))
      (words ++ AxisSlices.pushed (s.regsliceIn i)) :=
  h.step (by simp [regsliceIn, hrst]) ready_of_vld hend rfl

theorem resTvalidInt_of_ne (h4 : s.apCsFsm ≠ .state4) (h5 : s.apCsFsm ≠ .state5) :
    s.resTvalidInt = false := by
  simp [resTvalidInt, h4, h5]

theorem Quiet.step (h : Quiet s t args) (hfsm : s.apCsFsm = .state2 ∨ s.apCsFsm = .state3)
    (hrst : i.apRstN = true) : Quiet (s.step i).1 (t.record (s.event i)) (s.nextArgs i args) := by
  have hend : s.endCall i = false := by rcases hfsm with hfsm | hfsm <;> simp [endCall, hfsm]
  have hvalid : s.resTvalidInt = false := by rcases hfsm with hfsm | hfsm <;> simp [resTvalidInt, hfsm]
  have hne : s.apCsFsm ≠ .state1 := by rcases hfsm with hfsm | hfsm <;> simp [hfsm]
  have hfin : statics (t.record (s.event i)) = statics t := CallTrace.statics_record hend
  have hpushed := pushed_step h.pushed hrst hend
  rw [pushed_of_not_valid hvalid] at hpushed
  refine ⟨h.toTaken.step hne hend, ?_, hpushed⟩
  rw [hfin, Emits, (nextArgs_fields _).2.1]
  exact h.emits

theorem loop_idle (hloop : s.loop.Idle) (hstart : s.apStartReg = false) :
    s.tapRead i = false ∧ s.loop.apReady (s.loopIn i) = false ∧ (s.step i).1.loop.Idle ∧
      (s.step i).1.loop.outDataData = s.loop.outDataData ∧
      (s.step i).1.loop.outDataData1 = s.loop.outDataData1 := by
  have hiter : s.loop.apEnableRegPp0Iter0 (s.loopIn i) = false := by
    simp [FirPipeline.apEnableRegPp0Iter0, hloop.iter0, loopIn, hstart]
  refine ⟨?_, ?_, hloop.step_idle hstart⟩
  · simp [tapRead, FirPipeline.ce0, hiter]
  · simp [FirPipeline.apReady, hiter]

theorem Ready.taken (h : Ready s t) (haccept : s.accept i = true) :
    Taken (s.step i).1 (t.record (s.event i)) (s.callArgs i) := by
  have hend : s.endCall i = false := endCall_of_ne (by simp [h.fsm])
  have hfin : statics (t.record (s.event i)) = statics t := CallTrace.statics_record hend
  obtain ⟨hlast, hlast1, hcnt⟩ := outDataLast_eq h.cnt
  have hicmp : s.icmpLn26 = !decide (Emits (statics t) (s.callArgs i)) := by
    simp only [icmpLn26, addLn25, h.decCnt, emits_iff, decide_not, Bool.not_not]
    rfl
  constructor
  · simp [CallTrace.record, event, haccept]
  · rw [hfin, firHw_bufferLeft, ← h.bufferLeft, ← h.writeIdx]
    exact samples_bufferStep_accept haccept h.fsm
  · rw [hfin, firHw_bufferRight, ← h.bufferRight, ← h.writeIdx]
    exact samples_bufferStep_accept haccept h.fsm
  · simp [FirHwRtl.step, hfin, hend, h.writeIdx]
  · rw [hfin, firHw_fst]
    by_cases hemits : Emits (statics t) (s.callArgs i)
    · simp only [FirHwRtl.step, haccept, hicmp, hcnt, hemits]
      rfl
    · simp [FirHwRtl.step, haccept, hicmp, h.cnt, hemits]
  · simp [FirHwRtl.step, h.fsm, hfin, hicmp]
  · intro hskip
    have hskip' : s.icmpLn26 = true := by simpa [FirHwRtl.step, h.fsm] using hskip
    simp [FirHwRtl.step, hfin, haccept, hend, hskip', addLn25, h.decCnt]
  · simp [FirHwRtl.step, h.fsm, callArgs]
  · simp [FirHwRtl.step, h.fsm, hfin, hlast, callArgs]
  · simp [FirHwRtl.step, h.fsm, hfin, hlast1, callArgs]

theorem Ready.step (h : Ready s t) (hrst : i.apRstN = true) : Inv (s.step i).1 (t.record (s.event i)) := by
  obtain ⟨hread, hready, hloop, _⟩ := loop_idle (i := i) h.loop h.start
  have hend : s.endCall i = false := endCall_of_ne (by simp [h.fsm])
  have hpush : s.resTvalidInt = false := resTvalidInt_of_ne (by simp [h.fsm]) (by simp [h.fsm])
  obtain ⟨hholds, hgiven⟩ := AxisSlices.step_quiet h.res (i := s.regsliceIn i) (by simp [regsliceIn, hrst]) hpush
  have hfin : statics (t.record (s.event i)) = statics t := CallTrace.statics_record hend
  have hdelivered : (t.record (s.event i)).delivered =
      CallTrace.emitted firHw FirHwState.initial (t.record (s.event i)).finished := by
    simp [CallTrace.record, event, hgiven, hend, h.delivered]
  have hpushed : (s.step i).1.res.Pushed firHw FirHwState.initial (t.record (s.event i)) [] :=
    ⟨[], hholds, .nil hdelivered⟩
  have hstart : (s.step i).1.apStartReg = false := by simp [FirHwRtl.step, h.fsm, hready, h.start]
  by_cases haccept : s.accept i = true
  · have htaken := h.taken haccept
    have hicmp : s.icmpLn26 = !decide (Emits (statics t) (s.callArgs i)) := by
      rw [← hfin, ← htaken.icmp]
      simp [FirHwRtl.step, h.fsm]
    by_cases hemits : Emits (statics t) (s.callArgs i)
    · apply Inv.state2 (s.callArgs i)
      · simp [FirHwRtl.step, hrst, apNsFsm, h.fsm, haccept, hicmp, hemits]
      · exact ⟨htaken, by rwa [hfin], hpushed⟩
      · exact hloop
      · exact hstart
    · have hnone : (firHw (statics t) (s.callArgs i)).2 = [] := by
        rcases firHw_cases (statics t) (s.callArgs i) with ⟨h, _⟩ | ⟨_, hout, _⟩
        · exact absurd h hemits
        · exact hout
      apply Inv.state6 (s.callArgs i)
      · simp [FirHwRtl.step, hrst, apNsFsm, h.fsm, haccept, hicmp, hemits]
      · exact htaken
      · exact hloop
      · exact hstart
      · rwa [hfin, hnone]
  · have haccept' : s.accept i = false := by simpa using haccept
    apply Inv.state1
    constructor
    · simp [FirHwRtl.step, hrst, apNsFsm, h.fsm, haccept']
    · simp [CallTrace.record, event, haccept', hend, h.current]
    · rw [hfin, ← h.bufferLeft]
      exact samples_bufferStep haccept'
    · rw [hfin, ← h.bufferRight]
      exact samples_bufferStep haccept'
    · simp [FirHwRtl.step, hfin, hend, h.writeIdx]
    · simp [FirHwRtl.step, hfin, hend, h.decCnt]
    · simp [FirHwRtl.step, hfin, haccept', h.cnt]
    · exact hloop
    · exact hstart
    · exact .inr hholds
    · exact hdelivered

theorem step_state2 (hfsm : s.apCsFsm = .state2) (h : Quiet s t args) (hloop : s.loop.Idle)
    (hstart : s.apStartReg = false) (hrst : i.apRstN = true) : Inv (s.step i).1 (t.record (s.event i)) := by
  obtain ⟨hread, _, hidle, _⟩ := loop_idle (i := i) hloop hstart
  have hargs : s.nextArgs i args = args := by simp [nextArgs, hread]
  have hquiet := h.step (.inl hfsm) hrst
  rw [hargs] at hquiet
  apply Inv.state3 args _ hquiet (.start hidle)
  · simp [FirHwRtl.step, hrst, hfsm]
  · simp [FirHwRtl.step, hfsm, h.tap, BitVec.ofNat_add]
  · simp [FirHwRtl.step, hrst, apNsFsm, hfsm]

theorem firHw_snd_job (hemits : Emits (statics t) args) : (firHw (statics t) args).2 =
    [⟨((job t args).accL (args.tapNumM1.toNat + 1)).assign 32 1, -1,
        hit args.tlastDnum (statics t).cnt⟩,
      ⟨((job t args).accR (args.tapNumM1.toNat + 1)).assign 32 1, -1,
        hit args.tlastDnum (bump args.tlastDnum (statics t).cnt)⟩] := by
  rcases firHw_cases (statics t) args with ⟨_, hout, _⟩ | ⟨hnot, _⟩
  · exact hout
  · exact absurd hemits hnot

theorem finished_step (hloop : s.loop.Finished (job t args)) (hstart : s.apStartReg = false)
    (hfin : statics (t.record (s.event i)) = statics t) :
    s.nextArgs i args = args ∧ (s.step i).1.loop.Finished (job (t.record (s.event i)) args) := by
  obtain ⟨hread, _, hidle, hleft, hright⟩ := loop_idle (i := i) hloop.toIdle hstart
  have hjob : job (t.record (s.event i)) args = job t args := by simp only [job, hfin]
  refine ⟨by simp [nextArgs, hread], hidle, ?_, ?_⟩
  · rw [hjob, hleft]
    exact hloop.left
  · rw [hjob, hright]
    exact hloop.right

theorem apStartReg_step (hfsm : s.apCsFsm ≠ .state2) (hstart : s.apStartReg = false) :
    (s.step i).1.apStartReg = false := by
  simp [FirHwRtl.step, hfsm, hstart]

theorem step_state4 (hfsm : s.apCsFsm = .state4) (h : Quiet s t args)
    (hloop : s.loop.Finished (job t args)) (hstart : s.apStartReg = false) (hrst : i.apRstN = true) :
    Inv (s.step i).1 (t.record (s.event i)) := by
  have hend : s.endCall i = false := endCall_of_ne (by simp [hfsm])
  have hfin : statics (t.record (s.event i)) = statics t := CallTrace.statics_record hend
  have hready : s.resTreadyInt = true := h.pushed.ackIn (by simp)
  have hpush : AxisSlices.pushed (s.regsliceIn i) = (firHw (statics t) args).2.take 1 := by
    rw [firHw_snd_job h.emits]
    simp [AxisSlices.pushed, regsliceIn, resTvalidInt, resInt, hready, hfsm, hloop.left, h.last, job]
  have hnext := pushed_step h.pushed hrst hend
  rw [List.nil_append, hpush] at hnext
  obtain ⟨hargs, hfinished⟩ := finished_step hloop hstart hfin
  have htaken := h.toTaken.step (by simp [hfsm]) hend
  rw [hargs] at htaken
  apply Inv.state5 args _ htaken _ hfinished (apStartReg_step (by simp [hfsm]) hstart)
  · rwa [hfin]
  · simp [FirHwRtl.step, hrst, apNsFsm, hfsm, hready]
  · rw [hfin]
    exact h.emits

theorem step_state5 (hfsm : s.apCsFsm = .state5) (h : Taken s t args)
    (hemits : Emits (statics t) args) (hloop : s.loop.Finished (job t args))
    (hstart : s.apStartReg = false)
    (hpushed : s.res.Pushed firHw FirHwState.initial t ((firHw (statics t) args).2.take 1))
    (hrst : i.apRstN = true) : Inv (s.step i).1 (t.record (s.event i)) := by
  have hend : s.endCall i = false := endCall_of_ne (by simp [hfsm])
  have hfin : statics (t.record (s.event i)) = statics t := CallTrace.statics_record hend
  have hready : s.resTreadyInt = true := hpushed.ackIn (List.length_take_le 1 _)
  have hnext := pushed_step hpushed hrst hend
  have hpush : (firHw (statics t) args).2.take 1 ++ AxisSlices.pushed (s.regsliceIn i) =
      (firHw (statics t) args).2 := by
    rw [firHw_snd_job hemits]
    simp [AxisSlices.pushed, regsliceIn, resTvalidInt, resInt, hready, hfsm, hloop.right, h.last1, job]
  rw [hpush] at hnext
  obtain ⟨hargs, hfinished⟩ := finished_step hloop hstart hfin
  have htaken := h.step (by simp [hfsm]) hend
  rw [hargs] at htaken
  apply Inv.state6 args _ htaken hfinished.toIdle (apStartReg_step (by simp [hfsm]) hstart)
  · rwa [hfin]
  · simp [FirHwRtl.step, hrst, apNsFsm, hfsm, hready]

theorem Taken.end (h : Taken s t args) (hfsm : s.apCsFsm = .state6) (hloop : s.loop.Idle)
    (hstart : s.apStartReg = false) (hpushed : s.res.Pushed firHw FirHwState.initial t (firHw (statics t) args).2)
    (hrst : i.apRstN = true) (hend : s.endCall i = true) : Ready (s.step i).1 (t.record (s.event i)) := by
  have haccept : s.accept i = false := accept_of_ne (by simp [hfsm])
  have hfin : statics (t.record (s.event i)) = (firHw (statics t) args).1 :=
    CallTrace.statics_record_end h.current hend
  have hblock : s.apBlockState6 i = false := by simpa [endCall, hfsm] using hend
  obtain ⟨hholds, hdelivered⟩ := hpushed.end (e := s.event i) (i := s.regsliceIn i) h.current
    (by simp [regsliceIn, hrst]) (by simp [regsliceIn, resTvalidInt, hfsm]) (Bool.or_eq_false_iff.mp hblock).1
    hend rfl
  constructor
  · simp [FirHwRtl.step, hrst, apNsFsm, hfsm, hblock]
  · simp [CallTrace.record, event, haccept, hend]
  · rw [hfin, ← h.bufferLeft]
    exact samples_bufferStep haccept
  · rw [hfin, ← h.bufferRight]
    exact samples_bufferStep haccept
  · rw [hfin, firHw_writeIdx, ← h.writeIdx]
    simp [FirHwRtl.step, hend]
  · rw [hfin, firHw_fst]
    by_cases hemits : Emits (statics t) args
    · simp [FirHwRtl.step, hend, h.icmp, hemits]
    · simp [FirHwRtl.step, hend, h.icmp, hemits, h.decCnt]
  · rw [hfin, ← h.cnt]
    simp [FirHwRtl.step, haccept]
  · exact (loop_idle hloop hstart).2.2.1
  · exact apStartReg_step (by simp [hfsm]) hstart
  · exact .inr hholds
  · exact hdelivered

theorem step_state6 (hfsm : s.apCsFsm = .state6) (h : Taken s t args) (hloop : s.loop.Idle)
    (hstart : s.apStartReg = false) (hpushed : s.res.Pushed firHw FirHwState.initial t (firHw (statics t) args).2)
    (hrst : i.apRstN = true) : Inv (s.step i).1 (t.record (s.event i)) := by
  obtain ⟨hread, _, hidle, _⟩ := loop_idle (i := i) hloop hstart
  have hstart' := apStartReg_step (i := i) (by simp [hfsm]) hstart
  have hnone := pushed_of_not_valid (i := i) (show s.resTvalidInt = false by simp [resTvalidInt, hfsm])
  by_cases hend : s.endCall i = true
  · exact .state1 (h.end hfsm hloop hstart hpushed hrst hend)
  · have hend' : s.endCall i = false := by simpa using hend
    have hblock : s.apBlockState6 i = true := by simpa [endCall, hfsm] using hend'
    have hfin : statics (t.record (s.event i)) = statics t := CallTrace.statics_record hend'
    have hargs : s.nextArgs i args = args := by simp [nextArgs, hread]
    have htaken := h.step (by simp [hfsm]) hend'
    have hnext := pushed_step hpushed hrst hend'
    rw [hargs] at htaken
    rw [hnone, List.append_nil] at hnext
    apply Inv.state6 args _ htaken hidle hstart'
    · rwa [hfin]
    · simp [FirHwRtl.step, hrst, apNsFsm, hfsm, hblock]

/-! ### The loop -/

theorem step_reads {n : ℕ} (hfsm : s.apCsFsm = .state3) (h : Quiet s t args) (hn : n ≤ args.tapNumM1.toNat)
    (hreads : s.loop.Reads (s.loopIn i) n)
    (hmid : (s.step i).1.loop.MidTap (job t args) n) :
    InLoop (s.step i).1 (t.record (s.event i)) (s.nextArgs i args) := by
  have hend : s.endCall i = false := endCall_of_ne (by simp [hfsm])
  have hfin : statics (t.record (s.event i)) = statics t := CallTrace.statics_record hend
  have haccept : s.accept i = false := accept_of_ne (by simp [hfsm])
  have hlt := args.tapNumM1.isLt
  have hargs : s.nextArgs i args = s.readCoeff (BitVec.ofNat 9 n) args := by
    simp [nextArgs, tapRead, hreads.ce0, hreads.icmp, hreads.coeffAddress]
  have hjob : job (t.record (s.event i)) (s.nextArgs i args) =
      (job t args).withCoeff n ⟨s.control.mem (BitVec.ofNat 9 n)⟩ := by
    simp only [job, hfin, firHw_nextArgs]
    rw [hargs]
    rfl
  have haddr : s.loop.bufferAddress0 (s.loopIn i) = (statics t).writeIdx - BitVec.ofNat 9 n := by
    rw [hreads.bufferAddress, ← h.writeIdx]
    rfl
  apply InLoop.midTap n
  · rwa [(nextArgs_fields _).2.2]
  · rw [hjob]
    exact hmid.withCoeff (by omega) _
  · rw [hjob, LoopJob.withCoeff_self]
    simp [FirHwRtl.step, ControlSAxi.step, controlIn, hreads.ce0, hreads.coeffAddress]
  · rw [hjob]
    show _ = ((firHw (statics t) args).1.bufferLeft
      ((statics t).writeIdx - BitVec.ofNat 9 n)).V
    rw [← h.bufferLeft]
    simp [FirHwRtl.step, bufferStep, BufferRam.step, hfsm, hreads.ce0, haddr, BufferRam.samples]
  · rw [hjob]
    show _ = ((firHw (statics t) args).1.bufferRight
      ((statics t).writeIdx - BitVec.ofNat 9 n)).V
    rw [← h.bufferRight]
    simp [FirHwRtl.step, bufferStep, BufferRam.step, hfsm, hreads.ce0, haddr, BufferRam.samples]

theorem step_loop (hfsm : s.apCsFsm = .state3) (h : Quiet s t args) (hstart : s.apStartReg = true)
    (hlen : s.addLn32Reg = BitVec.ofNat 10 (args.tapNumM1.toNat + 1)) (hrst : i.apRstN = true)
    (hready : s.loop.apReady (s.loopIn i) = false) (hdone : s.loop.apDone (s.loopIn i) = false)
    (hloop : InLoop (s.step i).1 (t.record (s.event i)) (s.nextArgs i args)) :
    Inv (s.step i).1 (t.record (s.event i)) := by
  apply Inv.state3 (s.nextArgs i args) _ (h.step (.inr hfsm) hrst) hloop
  · simp [FirHwRtl.step, hrst, hfsm, hready, hstart]
  · rw [(nextArgs_fields _).2.2]
    simp [FirHwRtl.step, hfsm, hlen]
  · simp [FirHwRtl.step, hrst, apNsFsm, hfsm, hdone]

/-- **What a cycle of the loop can do**: read the memories for a tap, accumulate the left product of one, or
leave the loop. -/
theorem InLoop.cases (hloop : InLoop s t args) (hstart : s.apStartReg = true)
    (hlen : s.addLn32Reg = BitVec.ofNat 10 (args.tapNumM1.toNat + 1)) (hrst : i.apRstN = true) :
    (∃ n ≤ args.tapNumM1.toNat, s.loop.Reads (s.loopIn i) n ∧ (s.step i).1.loop.MidTap (job t args) n ∧
      (s.loop.Idle ∧ n = 0 ∨ ∃ m, n = m + 1 ∧ s.loop.AtTap (job t args) m)) ∨
    (∃ n ≤ args.tapNumM1.toNat, s.loop.MidTap (job t args) n ∧ s.loop.apReady (s.loopIn i) = false ∧
      s.loop.apDone (s.loopIn i) = false ∧ s.loop.ce0 (s.loopIn i) = false ∧
      (s.step i).1.loop.AtTap (job t args) n) ∨
    (s.loop.AtTap (job t args) args.tapNumM1.toNat ∧ s.loop.apReady (s.loopIn i) = true ∧
      s.loop.apDone (s.loopIn i) = true ∧ (s.step i).1.loop.Finished (job t args)) := by
  have hrst' : (s.loopIn i).apRst = false := by simp [loopIn, hrst]
  have hlt := args.tapNumM1.isLt
  have hne : ∀ m, m < 1024 → m ≠ args.tapNumM1.toNat + 1 → s.addLn32Reg ≠ BitVec.ofNat 10 m := by
    intro m hm hmne heq
    have hnat := congrArg BitVec.toNat (hlen.symm.trans heq)
    simp only [BitVec.toNat_ofNat] at hnat
    omega
  cases hloop with
  | start hidle =>
    obtain ⟨hreads, hmid⟩ := hidle.step_start (job t args) hrst' hstart (hne 0 (by omega) (by omega))
    exact .inl ⟨0, Nat.zero_le _, hreads, hmid, .inl ⟨hidle, rfl⟩⟩
  | midTap n hn hmid hcoeff hleft hright =>
    exact .inr (.inl ⟨n, hn, hmid, hmid.step_next (i := s.loopIn i) hrst' hstart hcoeff hleft hright⟩)
  | atTap n hn hat =>
    by_cases hlast : n = args.tapNumM1.toNat
    · subst hlast
      exact .inr (.inr ⟨hat, hat.step_exit (i := s.loopIn i) hstart hlen⟩)
    · obtain ⟨hreads, hmid⟩ := hat.step_next hrst' hstart (hne (n + 1) (by omega) (by omega))
      exact .inl ⟨n + 1, by omega, hreads, hmid, .inr ⟨n, rfl, hat⟩⟩

theorem step_state3 (hfsm : s.apCsFsm = .state3) (h : Quiet s t args) (hloop : InLoop s t args)
    (hstart : s.apStartReg = true) (hlen : s.addLn32Reg = BitVec.ofNat 10 (args.tapNumM1.toNat + 1))
    (hrst : i.apRstN = true) : Inv (s.step i).1 (t.record (s.event i)) := by
  have hend : s.endCall i = false := endCall_of_ne (by simp [hfsm])
  have hfin : statics (t.record (s.event i)) = statics t := CallTrace.statics_record hend
  have hjob : job (t.record (s.event i)) args = job t args := by simp only [job, hfin]
  rcases hloop.cases hstart hlen hrst with ⟨n, hn, hreads, hmid, _⟩ | ⟨n, hn, _, hready, hdone, hce, hat⟩ |
    ⟨_, hready, hdone, hfinished⟩
  · exact step_loop hfsm h hstart hlen hrst hreads.ready hreads.done (step_reads hfsm h hn hreads hmid)
  · have hargs : s.nextArgs i args = args := by simp [nextArgs, tapRead, hce]
    apply step_loop hfsm h hstart hlen hrst hready hdone
    rw [hargs]
    exact .atTap n hn (hjob ▸ hat)
  · -- the cycle that leaves the loop addresses one tap more, but does not read it
    have hicmp : s.loop.icmpLn32 (s.loopIn i) = true := by
      simp only [FirPipeline.apReady, Bool.and_eq_true] at hready
      exact hready.1.1
    have hargs : s.nextArgs i args = args := by simp [nextArgs, tapRead, hicmp]
    have hquiet := h.step (.inr hfsm) hrst
    rw [hargs] at hquiet
    apply Inv.state4 args _ hquiet
    · rw [hjob]
      exact hfinished
    · simp [FirHwRtl.step, hrst, hfsm, hready]
    · simp [FirHwRtl.step, hrst, apNsFsm, hfsm, hdone]

theorem Inv.step (h : Inv s t) (hrst : i.apRstN = true) : Inv (s.step i).1 (t.record (s.event i)) := by
  cases h with
  | state1 h => exact h.step hrst
  | state2 args hfsm h hloop hstart => exact step_state2 hfsm h hloop hstart hrst
  | state3 args hfsm h hloop hstart hlen => exact step_state3 hfsm h hloop hstart hlen hrst
  | state4 args hfsm h hloop hstart => exact step_state4 hfsm h hloop hstart hrst
  | state5 args hfsm h hemits hloop hstart hpushed => exact step_state5 hfsm h hemits hloop hstart hpushed hrst
  | state6 args hfsm h hloop hstart hpushed => exact step_state6 hfsm h hloop hstart hpushed hrst

end Steps

end FpgaLabor.FirHwRtl
