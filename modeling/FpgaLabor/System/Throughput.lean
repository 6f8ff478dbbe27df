import FpgaLabor.System.Startup

/-!
# How fast the programmed core is

Every third pair of samples costs the whole loop and the other two are only stored. The decimation counter is
the potential that spreads this cost: a pair takes 345 cycles on average (`startup_throughput`), and for
every three of them a pair of beats leaves the core.
-/

namespace FpgaLabor

open CallTrace (emitted)
open FirHwRtl (stepTraced acceptedPair apBlockState1 callCycles cycleCost remainingCycles starved stalled
  ProgrammedFrom)

/-! ### The decimation counter as a potential -/

/-- What the calls so far have saved up for the next one that emits. -/
def saved (t : CallTrace FirHwArgs AxisType) : ℕ :=
  343 * (CallTrace.statics firHw FirHwState.initial t.calls).decCnt.toNat

section Step

variable {p : FirHwRtl × CallTrace FirHwArgs AxisType} {i : FirCycle} {n : ℕ}

theorem decimation_cost (d : BitVec 3) :
    343 * (if d + 1 ≥ 3 then 0 else d + 1).toNat + (if d + 1 < 3 then 2 else 2 * 511 + 8) ≤ 343 * d.toNat + 345 := by
  revert d
  decide

theorem statics_calls_of_not_accept (haccept : p.1.accept i = false) :
    CallTrace.statics firHw FirHwState.initial (stepTraced p i).1.2.calls =
      CallTrace.statics firHw FirHwState.initial p.2.calls := by
  have hbegins : (p.1.event i).begins = none := by simp [FirHwRtl.event, haccept]
  have hcalls : (stepTraced p i).1.2.calls = _ := CallTrace.calls_record_of_none hbegins
  rw [hcalls, CallTrace.calls]
  cases p.2.current with
  | none => rfl
  | some args =>
    rw [Option.map_some, Option.toList_some, Option.toList_some, CallTrace.statics_concat, CallTrace.statics_concat]
    split_ifs
    · rfl
    · exact FirHwRtl.firHw_nextArgs _

/-- A cycle of the programmed core takes from the potential, or is paid for. -/
theorem saved_step (h : ProgrammedFrom n p) :
    saved (stepTraced p i).1.2 + callCycles p.1 i ≤ saved p.2 + 345 * (acceptedPair p i).length := by
  by_cases haccept : p.1.accept i = true
  · have hfsm : p.1.apCsFsm = .state1 := by
      by_contra hne
      rw [FirHwRtl.accept_of_ne hne] at haccept
      cases haccept
    have hready := h.running.1.ready_of_state1 hfsm
    have hbegins : (p.1.event i).begins = some (p.1.callArgs i) := by simp [FirHwRtl.event, haccept]
    have hcalls : (stepTraced p i).1.2.calls = p.2.calls ++ [p.1.callArgs i] :=
      CallTrace.calls_record_of_begins (FirHwRtl.callMachine.sequential h.running.1) hbegins
    have hnow : p.1.decCnt = (CallTrace.statics firHw FirHwState.initial p.2.calls).decCnt := by
      rw [CallTrace.calls_of_none hready.current]
      exact hready.decCnt
    have hsmpl : p.1.control.intSmplRdNum = 3 := congrArg RegisterFile.smplRdNum h.registers
    have htap : p.1.control.intTapNumM1.toNat = 511 := by
      rw [show p.1.control.intTapNumM1 = 511 from congrArg RegisterFile.tapNumM1 h.registers]
      rfl
    have hicmp : p.1.icmpLn26 = decide (p.1.decCnt + 1 < 3) := by rw [FirHwRtl.icmpLn26, FirHwRtl.addLn25, hsmpl]
    have hcost := decimation_cost p.1.decCnt
    have hemits :
        Emits (CallTrace.statics firHw FirHwState.initial p.2.calls) (p.1.callArgs i) ↔ p.1.decCnt + 1 ≥ 3 := by
      rw [Emits, ← hnow, ← hsmpl]
      rfl
    have hnext : saved (stepTraced p i).1.2 = 343 * (if p.1.decCnt + 1 ≥ 3 then 0 else p.1.decCnt + 1).toNat := by
      rw [saved, hcalls, CallTrace.statics_concat, FirHwRtl.firHw_fst, ← hnow]
      simp only [hemits]
    rw [hnext, saved, ← hnow]
    simp only [callCycles, haccept, hicmp, htap, acceptedPair, decide_eq_true_eq, if_true, List.length_singleton]
    omega
  · have hfalse : p.1.accept i = false := by simpa using haccept
    have hsaved : saved (stepTraced p i).1.2 = saved p.2 := by rw [saved, saved, statics_calls_of_not_accept hfalse]
    simp [hsaved, callCycles, acceptedPair, haccept]

/-- What a pair of samples costs on average, and the cycle itself if the core is starved or stalled. -/
def pairCost : FirHwRtl × CallTrace FirHwArgs AxisType → FirCycle → ℕ :=
  Mealy.callCost (fun p i => 345 * (acceptedPair p i).length) starved stalled

theorem potential_step (h : ProgrammedFrom n p) (hrst : i.apRstN = true) :
    remainingCycles (stepTraced p i).1.1 + saved (stepTraced p i).1.2 + 1 ≤
      remainingCycles p.1 + saved p.2 + pairCost p i := by
  have hcycles : remainingCycles (stepTraced p i).1.1 + 1 ≤ remainingCycles p.1 + cycleCost p i :=
    FirHwRtl.remainingCycles_step h.running.1 hrst
  have hsaved := saved_step (i := i) h
  simp only [cycleCost, Mealy.callCost] at hcycles
  simp only [pairCost, Mealy.callCost]
  omega

end Step

theorem Startup.cycles_le (u : Startup) :
    u.after.length ≤ 345 * (Mealy.collect stepTraced acceptedPair u.atInit u.after).length +
      Mealy.count stepTraced starved u.atInit u.after + Mealy.count stepTraced stalled u.atInit u.after + 3430 := by
  have hrun := Mealy.length_le_of_potential_of_seen stepTraced FirHwRtl.committed pairCost
    (fun p => remainingCycles p.1 + saved p.2) (fun _ _ h hi hread => h.step hi hread)
    (fun _ _ h hi => potential_step h hi) u.programmedFrom_atInit u.stays u.quiet
  have hremaining := FirHwRtl.remainingCycles_le u.atInit.1
  have hsaved : saved u.atInit.2 ≤ 343 * 7 := by
    have hlt := (CallTrace.statics firHw FirHwState.initial u.atInit.2.calls).decCnt.isLt
    unfold saved
    omega
  rw [pairCost, Mealy.total_callCost, Mealy.total_mul_length] at hrun
  omega

/-! ### What leaves the core -/

/-- How near the next call that emits is. -/
def nearness (d : BitVec 3) : ℕ := if d = 7 then 0 else min 3 (d.toNat + 1)

theorem nearness_le (d : BitVec 3) : nearness d ≤ 3 := by
  unfold nearness
  split_ifs
  · exact Nat.zero_le 3
  · exact min_le_left _ _

theorem nearness_next (d : BitVec 3) : nearness d + 1 ≤ if d + 1 ≥ 3 then 3 + nearness 0 else nearness (d + 1) := by
  revert d
  decide

theorem length_emitted_ge (s : FirHwState) {bs : List FirHwArgs} (hbs : ∀ args ∈ bs, args.smplRdNum = 3) :
    2 * bs.length + 2 * nearness s.decCnt ≤
      3 * (Mealy.outputs firHw s bs).flatten.length + 2 * nearness (Mealy.runState firHw s bs).decCnt := by
  induction bs generalizing s with
  | nil => simp
  | cons args bs ih =>
    have hrest := ih (firHw s args).1 fun a ha => hbs a (List.mem_cons_of_mem _ ha)
    have hnear := nearness_next s.decCnt
    have hemits : Emits s args ↔ s.decCnt + 1 ≥ 3 := by rw [Emits, hbs args List.mem_cons_self]
    rw [Mealy.outputs_cons, Mealy.runState_cons, List.flatten_cons, List.length_append, List.length_cons]
    rcases firHw_cases s args with ⟨he, hout, -, hdec⟩ | ⟨he, hout, -, hdec⟩
    · rw [if_pos (hemits.mp he)] at hnear
      rw [hdec] at hrest
      simp only [hout, List.length_cons, List.length_nil]
      omega
    · rw [if_neg (hemits.not.mp he)] at hnear
      rw [hdec] at hrest
      simp only [hout, List.length_nil]
      omega

theorem Startup.length_calls (u : Startup) : u.calls.length =
    u.atInit.2.calls.length + (Mealy.collect stepTraced acceptedPair u.atInit u.after).length := by
  have hlog := Mealy.log_run stepTraced acceptedPair (fun p => p.2.calls.map FirHwRtl.samplesOf)
    (I := FirHwRtl.Running) (fun _ _ h hi => h.step hi)
    (fun p i h _ => FirHwRtl.callMachine.calls_record h.1) u.running_atInit u.stays
  have hlength := congrArg List.length hlog
  rw [List.length_append, List.length_map, List.length_map] at hlength
  rw [StartupRun.calls, StartupRun.final, Mealy.runState_append]
  exact hlength

theorem Startup.delivered_ge (u : Startup) :
    2 * (Mealy.collect stepTraced acceptedPair u.atInit u.after).length + 3 * u.atInit.2.delivered.length ≤
      3 * u.delivered.length + 12 := by
  obtain ⟨as, bs, hcalls, hlen, -, hbs, -, hbefore⟩ := u.calls_eq
  have hemitted : (emitted firHw FirHwState.initial u.calls).length ≤ u.delivered.length + 2 :=
    u.programmedFrom_final.running.1.agrees.length_emitted_le length_firHw_le
  have hthird := length_emitted_ge (Mealy.runState firHw FirHwState.initial as)
    fun args hargs => (hbs args hargs).smplRdNum
  have hnear := nearness_le (Mealy.runState firHw (Mealy.runState firHw FirHwState.initial as) bs).decCnt
  have hlength := u.length_calls
  unfold emitted at hbefore
  rw [hcalls, emitted, Mealy.outputs_append, List.flatten_append, List.length_append] at hemitted
  rw [hcalls, List.length_append, hlen] at hlength
  omega

/-- **How fast the programmed core is.** From the last store of `FIR_init` on a cycle is one of 345 of a pair of
samples, one in which the core waits for samples in state 1, or one in which the sink does not take a beat, but
for 3430 at the start; and for every three pairs of samples taken since that store a pair of beats has left the
core since, but for two pairs of beats. -/
theorem startup_throughput (u : Startup) :
    u.after.length ≤ 345 * (Mealy.collect stepTraced acceptedPair u.atInit u.after).length +
      Mealy.count stepTraced starved u.atInit u.after + Mealy.count stepTraced stalled u.atInit u.after + 3430 ∧
    2 * (Mealy.collect stepTraced acceptedPair u.atInit u.after).length ≤
      3 * (u.delivered.length - u.atInit.2.delivered.length) + 12 := by
  have hbeats := u.delivered_ge
  exact ⟨u.cycles_le, by omega⟩

namespace FirHwRtl

theorem length_delivered_shipped : 513 ≤ shippedStartup.delivered.length := by
  have hafter : shippedStartup.after = lastStoreCycle :: sampleRun := rfl
  have hstarved : Mealy.count stepTraced starved shippedStartup.atInit shippedStartup.after ≤ 1 := by
    have hoffered : sampleRun.countP apBlockState1 = 0 := by
      refine List.countP_eq_zero.mpr fun i hi => ?_
      rw [eq_of_mem_sampleRun hi]
      decide
    refine (Mealy.count_le_countP stepTraced (q := apBlockState1)
      (fun _ _ h => (Bool.and_eq_true_iff.mp h).2) _ _).trans_eq ?_
    rw [hafter, List.countP_cons, hoffered]
    rfl
  have hstalled : Mealy.count stepTraced stalled shippedStartup.atInit shippedStartup.after ≤ 0 := by
    refine (Mealy.count_le_countP stepTraced (q := fun i => !i.resTready)
      (fun _ _ h => (Bool.and_eq_true_iff.mp h).2) _ _).trans_eq (List.countP_eq_zero.mpr fun i hi => ?_)
    rcases List.mem_cons.mp (hafter ▸ hi) with rfl | hi
    · decide
    · rw [eq_of_mem_sampleRun hi]
      decide
  have hcycles := shippedStartup.cycles_le
  have hbeats := shippedStartup.delivered_ge
  have hlength : shippedStartup.after.length = 300001 := by rw [hafter, List.length_cons, length_sampleRun]
  generalize (Mealy.collect stepTraced acceptedPair shippedStartup.atInit shippedStartup.after).length = pairs at *
  generalize shippedStartup.delivered.length = beats at *
  omega

theorem startup_throughput_shipped :
    shippedStartup.after.length ≤ 345 * (Mealy.collect stepTraced acceptedPair shippedStartup.atInit
        shippedStartup.after).length +
      Mealy.count stepTraced starved shippedStartup.atInit shippedStartup.after +
      Mealy.count stepTraced stalled shippedStartup.atInit shippedStartup.after + 3430 ∧
    2 * (Mealy.collect stepTraced acceptedPair shippedStartup.atInit shippedStartup.after).length ≤
      3 * (shippedStartup.delivered.length - shippedStartup.atInit.2.delivered.length) + 12 :=
  startup_throughput shippedStartup

end FirHwRtl

end FpgaLabor
