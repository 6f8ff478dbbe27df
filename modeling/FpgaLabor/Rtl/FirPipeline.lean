import FpgaLabor.Hls.FirHw

/-!
# The loop pipeline of `fir_hw`

`Pipeline_VITIS_LOOP_32_1` runs the tap loop with one multiplier in two stages: in stage 0 it addresses
tap `i` and accumulates the right product of tap `i - 1`, in stage 1 it accumulates the left product of
tap `i` from the words just read and keeps the right sample for the next stage. `step` is one clock edge,
with the flow control of the loop in it. `Idle`, `AtTap`, `MidTap` and `Finished` say what the registers
hold in each phase, and the lemmas at the end say how one phase leads to the next; together they make the
two accumulators those of the source loop, `firTap` by `firTap`.

A multiplexer that the module leaves undefined (`'bx`) is driven by an input of the cycle.
-/

namespace FpgaLabor

/-! ### The datapath -/

/-- `mul_47s_32s_79_1_1`. -/
def mul47s32s79 (din0 : BitVec 47) (din1 : BitVec 32) : BitVec 79 :=
  din0.signExtend 79 * din1.signExtend 79

/-- One multiply-accumulate: the accumulator with 31 fractional bits more, plus the product. -/
def macc (acc : BitVec 48) (sample : BitVec 24) (coeff : BitVec 32) : BitVec 79 :=
  (acc ++ 0#31) + mul47s32s79 (sample ++ 0#23) coeff

theorem macc_eq (acc : BitVec 48) (sample : BitVec 24) (coeff : BitVec 32) :
    macc acc sample coeff =
      BitVec.ofInt 79 (acc.toInt * 2 ^ 31 + sample.toInt * 2 ^ 23 * coeff.toInt) := by
  have hacc : (acc ++ 0#31 : BitVec 79) = BitVec.ofInt 79 (acc.toInt * 2 ^ 31) := by
    rw [← BitVec.ofInt_toInt (x := acc ++ 0#31), BitVec.toInt_append_zero, mul_comm]
  have hsample : (sample ++ 0#23 : BitVec 47).signExtend 79 = BitVec.ofInt 79 (sample.toInt * 2 ^ 23) := by
    rw [BitVec.signExtend, BitVec.toInt_append_zero, mul_comm]
  have hcoeff : coeff.signExtend 79 = BitVec.ofInt 79 coeff.toInt := rfl
  rw [macc, mul47s32s79, hacc, hsample, hcoeff, ← BitVec.ofInt_mul, ← BitVec.ofInt_add]

theorem setWidth_signExtend {v w : ℕ} (h : v ≤ w) (x : BitVec v) : (x.signExtend w).setWidth v = x := by
  ext i hi
  simp [BitVec.getElem_signExtend, hi, show i < w by omega]

/-- Bits 78 to 31 of the sum are the accumulator of the source after one tap. -/
theorem firTap_V (coeffHw : BitVec 9 → CoeffT) (buffer : BitVec 9 → DinT) (writeIdx : BitVec 9)
    (acc : AccT) (i : ℕ) :
    (firTap coeffHw buffer writeIdx acc i).V =
      (macc acc.V (buffer (writeIdx - BitVec.ofNat 9 i)).V
        (coeffHw (BitVec.ofNat 9 i)).V).extractLsb' 31 48 := by
  rw [macc_eq, extractLsb'_ofInt (by norm_num), firTap,
    ApFixed.addAssign_eq (k := 31) (by norm_num) (by norm_num) (by norm_num), ApFixed.V_ofRaw,
    ApFixed.raw_mul (by norm_num) (by norm_num), ApFixed.raw_assign_of_le (by norm_num) (by norm_num),
    add_comm (_ * 2 ^ 31), Int.add_mul_ediv_right _ _ (by positivity), add_comm]
  rfl

theorem assign_macc (acc : BitVec 48) (sample : BitVec 24) (coeff : BitVec 32) :
    (ApFixed.assign 32 1 (⟨(macc acc sample coeff).extractLsb' 31 48⟩ : AccT)).V =
      (macc acc sample coeff).extractLsb' 46 32 := by
  rw [ApFixed.assign_of_lt (by norm_num), ApFixed.V_ofRaw, ApFixed.raw_mk, macc_eq,
    extractLsb'_ofInt (by norm_num), extractLsb'_ofInt (by norm_num), BitVec.toInt_ofInt,
    ofInt_bmod_ediv (by norm_num), Int.ediv_ediv_of_nonneg (by positivity), ← pow_add]

theorem foldl_firTap_congr {coeffHw coeffHw' : BitVec 9 → CoeffT} (buffer : BitVec 9 → DinT)
    (writeIdx : BitVec 9) {n : ℕ}
    (h : ∀ m < n, coeffHw (BitVec.ofNat 9 m) = coeffHw' (BitVec.ofNat 9 m)) :
    (List.range n).foldl (firTap coeffHw buffer writeIdx) 0 =
      (List.range n).foldl (firTap coeffHw' buffer writeIdx) 0 := by
  apply List.foldl_ext
  intro acc m hm
  rw [firTap, firTap, h m (List.mem_range.mp hm)]

/-! ### The module -/

/-- `ap_CS_fsm`. -/
inductive PipelineStage
  | pp0Stage0
  | pp0Stage1
deriving DecidableEq, Repr

/-- The registers of the module and of its flow control. -/
structure FirPipeline where
  apCsFsm : PipelineStage
  apEnableRegPp0Iter0Reg : Bool
  apEnableRegPp0Iter1 : Bool
  outDataData : BitVec 32
  outDataData1 : BitVec 32
  accL : BitVec 48
  accR : BitVec 48
  i : BitVec 10
  icmpLn32Reg : Bool
  sampleRReg : BitVec 24
  sextLn381Reg : BitVec 79
  apDoneReg : Bool
  apLoopInitInt : Bool
  apDoneCache : Bool

/-- The inputs of one cycle, and what an undefined multiplexer carries in it. -/
structure PipelineIn where
  apRst : Bool
  apStart : Bool
  addLn32 : BitVec 10
  writeIdxLoad : BitVec 9
  coeffHwQ0 : BitVec 32
  bufferLeftQ0 : BitVec 24
  bufferRightQ0 : BitVec 24
  undefP0 : BitVec 47
  undefP1 : BitVec 32

namespace FirPipeline

variable (s : FirPipeline) (i : PipelineIn)

def stage0 : Bool := s.apCsFsm == .pp0Stage0

def stage1 : Bool := s.apCsFsm == .pp0Stage1

/-- `ap_loop_init`. -/
def apLoopInit : Bool := s.apLoopInitInt && i.apStart

/-- `ap_enable_reg_pp0_iter0`. -/
def apEnableRegPp0Iter0 : Bool := if s.stage0 then i.apStart else s.apEnableRegPp0Iter0Reg

/-- `ap_sig_allocacmp_i_1`: the tap addressed in the cycle. -/
def allocacmpI : BitVec 10 := if s.stage0 && s.apLoopInit i then 0 else s.i

/-- `icmp_ln32`. -/
def icmpLn32 : Bool := s.allocacmpI i == i.addLn32

/-- `ap_condition_exit_pp0_iter0_stage0`, which is also `ap_ready`. -/
def apReady : Bool := s.icmpLn32 i && s.apEnableRegPp0Iter0 i && s.stage0

/-- `ap_idle_pp0`. -/
def apIdlePp0 : Bool := !s.apEnableRegPp0Iter1 && !s.apEnableRegPp0Iter0 i

/-- `ap_done_int`. -/
def apDoneInt : Bool := if s.apReady i then true else s.apDoneReg

/-- `ap_ready_int`. -/
def apReadyInt : Bool := s.apEnableRegPp0Iter0Reg && s.stage1

/-- `ap_done`. -/
def apDone : Bool := s.apDoneInt i || (s.apDoneCache && !i.apStart)

/-- The enable of the three memories. -/
def ce0 : Bool := s.apEnableRegPp0Iter0 i && s.stage0

/-- `coeff_hw_address0`. -/
def coeffHwAddress0 : BitVec 9 := (s.allocacmpI i).setWidth 9

/-- `buffer_left_address0` and `buffer_right_address0`. -/
def bufferAddress0 : BitVec 9 := i.writeIdxLoad - (s.allocacmpI i).setWidth 9

/-- `grp_fu_171_p0`. -/
def p0 : BitVec 47 :=
  if s.apEnableRegPp0Iter1 && s.stage0 then s.sampleRReg ++ 0#23
  else if s.apEnableRegPp0Iter0Reg && s.stage1 then i.bufferLeftQ0 ++ 0#23
  else i.undefP0

/-- `grp_fu_171_p1`. -/
def p1 : BitVec 32 :=
  if s.apEnableRegPp0Iter1 && s.stage0 then s.sextLn381Reg.setWidth 32
  else if s.apEnableRegPp0Iter0Reg && s.stage1 then (i.coeffHwQ0.signExtend 79).setWidth 32
  else i.undefP1

/-- `add_ln38`. -/
def addLn38 : BitVec 79 := (s.accL ++ 0#31) + mul47s32s79 (s.p0 i) (s.p1 i)

/-- `add_ln39`. -/
def addLn39 : BitVec 79 := (s.accR ++ 0#31) + mul47s32s79 (s.p0 i) (s.p1 i)

/-- The condition under which the left accumulator takes `add_ln38`. -/
def loadL : Bool := !s.icmpLn32Reg && s.apEnableRegPp0Iter0Reg && s.stage1

/-- One clock edge. `ap_continue_int` is tied high, and no stage ever blocks. -/
def step : FirPipeline where
  apCsFsm :=
    if i.apRst then .pp0Stage0
    else match s.apCsFsm with
      | .pp0Stage0 =>
        if s.apReady i then .pp0Stage0 else if !s.apIdlePp0 i then .pp0Stage1 else .pp0Stage0
      | .pp0Stage1 => .pp0Stage0
  apEnableRegPp0Iter0Reg :=
    if i.apRst then false
    else if s.apReady i then false
    else if s.stage0 then i.apStart
    else s.apEnableRegPp0Iter0Reg
  apEnableRegPp0Iter1 :=
    if i.apRst then false
    else if s.apEnableRegPp0Iter1 && s.stage0 then false
    else if s.stage1 then s.apEnableRegPp0Iter0 i
    else s.apEnableRegPp0Iter1
  outDataData :=
    if s.stage0 && s.apLoopInit i then 0
    else if s.loadL then (s.addLn38 i).extractLsb' 46 32
    else s.outDataData
  outDataData1 :=
    if s.stage0 then
      if s.apLoopInit i then 0
      else if s.apEnableRegPp0Iter1 then (s.addLn39 i).extractLsb' 46 32
      else s.outDataData1
    else s.outDataData1
  accL :=
    if s.stage0 && s.apLoopInit i then 0
    else if s.loadL then (s.addLn38 i).extractLsb' 31 48
    else s.accL
  accR :=
    if s.stage0 then
      if s.apLoopInit i then 0
      else if s.apEnableRegPp0Iter1 then (s.addLn39 i).extractLsb' 31 48
      else s.accR
    else s.accR
  i :=
    if s.stage0 then
      if !s.icmpLn32 i && s.apEnableRegPp0Iter0 i then s.allocacmpI i + 1
      else if s.apLoopInit i then 0
      else s.i
    else s.i
  icmpLn32Reg := if s.stage0 then s.icmpLn32 i else s.icmpLn32Reg
  sampleRReg := if s.stage1 then i.bufferRightQ0 else s.sampleRReg
  sextLn381Reg := if s.stage1 then i.coeffHwQ0.signExtend 79 else s.sextLn381Reg
  apDoneReg := false
  apLoopInitInt :=
    if i.apRst then true
    else if s.apDoneInt i then true
    else if s.apReadyInt then false
    else s.apLoopInitInt
  apDoneCache :=
    if i.apRst then false
    else if s.apDoneInt i then true
    else if i.apStart then false
    else s.apDoneCache

end FirPipeline

/-! ### The phases of a call -/

/-- What a call of the loop works on. The coefficient of a tap is the word read for it. -/
structure LoopJob where
  tapNumM1 : BitVec 9
  writeIdx : BitVec 9
  bufferLeft : BitVec 9 → DinT
  bufferRight : BitVec 9 → DinT
  coeffHw : BitVec 9 → CoeffT

namespace LoopJob

/-- The left accumulator after `n` taps of the source loop. -/
def accL (job : LoopJob) (n : ℕ) : AccT :=
  (List.range n).foldl (firTap job.coeffHw job.bufferLeft job.writeIdx) 0

/-- The right accumulator after `n` taps of the source loop. -/
def accR (job : LoopJob) (n : ℕ) : AccT :=
  (List.range n).foldl (firTap job.coeffHw job.bufferRight job.writeIdx) 0

/-- The job with the coefficient word read for tap `n`. -/
def withCoeff (job : LoopJob) (n : ℕ) (word : CoeffT) : LoopJob :=
  { job with coeffHw := Function.update job.coeffHw (BitVec.ofNat 9 n) word }

theorem withCoeff_self (job : LoopJob) (n : ℕ) (word : CoeffT) :
    (job.withCoeff n word).coeffHw (BitVec.ofNat 9 n) = word := Function.update_self _ _ _

end LoopJob

theorem foldl_firTap_succ (coeffHw : BitVec 9 → CoeffT) (buffer : BitVec 9 → DinT) (writeIdx : BitVec 9)
    (n : ℕ) :
    let acc := fun m => (List.range m).foldl (firTap coeffHw buffer writeIdx) 0
    let sum := macc (acc n).V (buffer (writeIdx - BitVec.ofNat 9 n)).V (coeffHw (BitVec.ofNat 9 n)).V
    (acc (n + 1)).V = sum.extractLsb' 31 48 ∧
      ((acc (n + 1)).assign 32 1 : DoutT).V = sum.extractLsb' 46 32 := by
  intro acc sum
  have hacc : acc (n + 1) = ⟨sum.extractLsb' 31 48⟩ := by
    apply ApFixed.ext
    rw [show acc (n + 1) = firTap coeffHw buffer writeIdx (acc n) n by
      simp only [acc, List.range_succ, List.foldl_append, List.foldl_cons, List.foldl_nil]]
    exact firTap_V coeffHw buffer writeIdx (acc n) n
  rw [hacc]
  exact ⟨rfl, assign_macc _ _ _⟩

namespace FirPipeline

/-- Between two calls. -/
structure Idle (s : FirPipeline) : Prop where
  fsm : s.apCsFsm = .pp0Stage0
  iter0 : s.apEnableRegPp0Iter0Reg = false
  iter1 : s.apEnableRegPp0Iter1 = false
  done : s.apDoneReg = false
  init : s.apLoopInitInt = true

/-- Stage 0 with the address of tap `n`, after the first one: the left accumulator has taps below `n`,
the right one still lacks the last of them. -/
structure AtTap (job : LoopJob) (n : ℕ) (s : FirPipeline) : Prop where
  fsm : s.apCsFsm = .pp0Stage0
  iter1 : s.apEnableRegPp0Iter1 = true
  done : s.apDoneReg = false
  init : s.apLoopInitInt = false
  i : s.i = BitVec.ofNat 10 (n + 1)
  accL : s.accL = (job.accL (n + 1)).V
  accR : s.accR = (job.accR n).V
  out : s.outDataData = ((job.accL (n + 1)).assign 32 1 : DoutT).V
  sample : s.sampleRReg = (job.bufferRight (job.writeIdx - BitVec.ofNat 9 n)).V
  coeff : s.sextLn381Reg = (job.coeffHw (BitVec.ofNat 9 n)).V.signExtend 79

/-- Stage 1 of tap `n`: both accumulators have the taps below `n`. -/
structure MidTap (job : LoopJob) (n : ℕ) (s : FirPipeline) : Prop where
  fsm : s.apCsFsm = .pp0Stage1
  iter0 : s.apEnableRegPp0Iter0Reg = true
  iter1 : s.apEnableRegPp0Iter1 = false
  done : s.apDoneReg = false
  icmp : s.icmpLn32Reg = false
  i : s.i = BitVec.ofNat 10 (n + 1)
  accL : s.accL = (job.accL n).V
  accR : s.accR = (job.accR n).V

/-- After a call, until the next one: the output registers hold the two words. -/
structure Finished (job : LoopJob) (s : FirPipeline) : Prop extends Idle s where
  left : s.outDataData = ((job.accL (job.tapNumM1.toNat + 1)).assign 32 1 : DoutT).V
  right : s.outDataData1 = ((job.accR (job.tapNumM1.toNat + 1)).assign 32 1 : DoutT).V

/-! ### From one phase to the next -/

section Phases

variable {s : FirPipeline} {i : PipelineIn} {job : LoopJob} {n : ℕ}

theorem idle_of_reset (h : i.apRst = true) : Idle (s.step i) := by
  constructor <;> simp [step, h]

theorem Idle.step_idle (hs : Idle s) (hstart : i.apStart = false) :
    Idle (s.step i) ∧ (s.step i).outDataData = s.outDataData ∧
      (s.step i).outDataData1 = s.outDataData1 := by
  have hready : s.apReady i = false := by simp [apReady, apEnableRegPp0Iter0, stage0, hs.fsm, hstart]
  have hidle : s.apIdlePp0 i = true := by
    simp [apIdlePp0, apEnableRegPp0Iter0, stage0, hs.fsm, hs.iter1, hstart]
  refine ⟨⟨?_, ?_, ?_, ?_, ?_⟩, ?_, ?_⟩
  · simp [step, hs.fsm, hready, hidle]
  · simp [step, hready, stage0, hs.fsm, hstart]
  · simp [step, stage1, hs.fsm, hs.iter1]
  · simp [step]
  · simp [step, apReadyInt, stage1, hs.fsm, hs.init]
  · simp [step, apLoopInit, hstart, loadL, stage1, hs.fsm]
  · simp [step, apLoopInit, hstart, hs.iter1]

/-- What the module drives in a cycle that reads the memories for tap `n`. -/
structure Reads (s : FirPipeline) (i : PipelineIn) (n : ℕ) : Prop where
  icmp : s.icmpLn32 i = false
  ready : s.apReady i = false
  done : s.apDone i = false
  ce0 : s.ce0 i = true
  coeffAddress : s.coeffHwAddress0 i = BitVec.ofNat 9 n
  bufferAddress : s.bufferAddress0 i = i.writeIdxLoad - BitVec.ofNat 9 n

theorem Idle.step_start (job : LoopJob) (hs : Idle s) (hrst : i.apRst = false) (hstart : i.apStart = true)
    (hlen : i.addLn32 ≠ 0) : Reads s i 0 ∧ MidTap job 0 (s.step i) := by
  have hstage : s.stage0 = true := by simp [stage0, hs.fsm]
  have hstage1 : s.stage1 = false := by simp [stage1, hs.fsm]
  have hload : s.apLoopInit i = true := by simp [apLoopInit, hs.init, hstart]
  have hiter : s.apEnableRegPp0Iter0 i = true := by simp [apEnableRegPp0Iter0, hstage, hstart]
  have htap : s.allocacmpI i = 0 := by simp [allocacmpI, hstage, hload]
  have hicmp : s.icmpLn32 i = false := by simpa [icmpLn32, htap] using hlen.symm
  have hready : s.apReady i = false := by simp [apReady, hicmp]
  have hdone : s.apDoneInt i = false := by simp [apDoneInt, hready, hs.done]
  have hbusy : s.apIdlePp0 i = false := by simp [apIdlePp0, hiter]
  refine ⟨?_, ?_⟩
  · constructor <;>
      simp [hicmp, hready, apDone, hdone, hstart, FirPipeline.ce0, hiter, hstage, coeffHwAddress0, bufferAddress0,
        htap]
  · have hzero : (0 : AccT).V = 0 := rfl
    constructor <;>
      simp [step, hrst, hs.fsm, hready, hbusy, hstage, hstage1, hstart, hs.iter1, hicmp, hiter, htap, hload,
        LoopJob.accL, LoopJob.accR, hzero]

theorem AtTap.addLn39_eq (hs : AtTap job n s) : s.addLn39 i = macc (job.accR n).V
    (job.bufferRight (job.writeIdx - BitVec.ofNat 9 n)).V (job.coeffHw (BitVec.ofNat 9 n)).V := by
  have hstage : s.stage0 = true := by simp [stage0, hs.fsm]
  have hp1 : s.p1 i = (job.coeffHw (BitVec.ofNat 9 n)).V := by
    rw [p1, hs.iter1, hstage, hs.coeff]
    exact setWidth_signExtend (by norm_num) _
  rw [addLn39, hp1, hs.accR, p0, hs.iter1, hstage, hs.sample]
  rfl

/-- Stage 0 before another tap: the right accumulator catches up. -/
theorem AtTap.step_next (hs : AtTap job n s) (hrst : i.apRst = false) (hstart : i.apStart = true)
    (hlen : i.addLn32 ≠ BitVec.ofNat 10 (n + 1)) :
    Reads s i (n + 1) ∧ MidTap job (n + 1) (s.step i) := by
  have hstage : s.stage0 = true := by simp [stage0, hs.fsm]
  have hstage1 : s.stage1 = false := by simp [stage1, hs.fsm]
  have hload : s.apLoopInit i = false := by simp [apLoopInit, hs.init]
  have hiter : s.apEnableRegPp0Iter0 i = true := by simp [apEnableRegPp0Iter0, hstage, hstart]
  have htap : s.allocacmpI i = BitVec.ofNat 10 (n + 1) := by simp [allocacmpI, hload, hs.i]
  have hicmp : s.icmpLn32 i = false := by simpa [icmpLn32, htap] using hlen.symm
  have hready : s.apReady i = false := by simp [apReady, hicmp]
  have hdone : s.apDoneInt i = false := by simp [apDoneInt, hready, hs.done]
  have hbusy : s.apIdlePp0 i = false := by simp [apIdlePp0, hiter]
  have hloadL : s.loadL = false := by simp [loadL, hstage1]
  have haddr : (BitVec.ofNat 10 (n + 1)).setWidth 9 = BitVec.ofNat 9 (n + 1) := by
    simp [BitVec.setWidth_ofNat_of_le]
  have hsucc : BitVec.ofNat 10 (n + 1) + 1#10 = BitVec.ofNat 10 (n + 1 + 1) := (BitVec.ofNat_add _ _).symm
  have hright := (foldl_firTap_succ job.coeffHw job.bufferRight job.writeIdx n).1
  refine ⟨?_, ?_⟩
  · constructor <;>
      simp [hicmp, hready, apDone, hdone, hstart, FirPipeline.ce0, hiter, hstage, coeffHwAddress0, bufferAddress0,
        htap, haddr]
  · constructor <;>
      simp [step, hrst, hs.fsm, hready, hbusy, hstage, hstage1, hstart, hs.iter1, hicmp, hiter, htap, hload,
        hloadL, hs.accL, hs.addLn39_eq, LoopJob.accR, hright, hsucc]

/-- Stage 0 after the last tap: the call is over, and the output registers hold its two words. -/
theorem AtTap.step_exit (hs : AtTap job job.tapNumM1.toNat s) (hstart : i.apStart = true)
    (hlen : i.addLn32 = BitVec.ofNat 10 (job.tapNumM1.toNat + 1)) :
    s.apReady i = true ∧ s.apDone i = true ∧ Finished job (s.step i) := by
  have hstage : s.stage0 = true := by simp [stage0, hs.fsm]
  have hstage1 : s.stage1 = false := by simp [stage1, hs.fsm]
  have hload : s.apLoopInit i = false := by simp [apLoopInit, hs.init]
  have hiter : s.apEnableRegPp0Iter0 i = true := by simp [apEnableRegPp0Iter0, hstage, hstart]
  have hicmp : s.icmpLn32 i = true := by simp [icmpLn32, allocacmpI, hload, hs.i, hlen]
  have hready : s.apReady i = true := by simp [apReady, hicmp, hiter, hstage]
  have hdone : s.apDoneInt i = true := by simp [apDoneInt, hready]
  have hloadL : s.loadL = false := by simp [loadL, hstage1]
  have hright := (foldl_firTap_succ job.coeffHw job.bufferRight job.writeIdx job.tapNumM1.toNat).2
  refine ⟨hready, by simp [apDone, hdone], ⟨?_, ?_, ?_, ?_, ?_⟩, ?_, ?_⟩
  · simp [step, hs.fsm, hready]
  · simp [step, hready]
  · simp [step, hs.iter1, hstage]
  · simp [step]
  · simp [step, hdone]
  · simp [step, hload, hloadL, hs.out]
  · simp [step, hstage, hload, hs.iter1, hs.addLn39_eq, LoopJob.accR, hright]

/-- Stage 1: the left accumulator takes the tap, and the right sample and the coefficient are kept. -/
theorem MidTap.step_next (hs : MidTap job n s) (hrst : i.apRst = false) (hstart : i.apStart = true)
    (hcoeff : i.coeffHwQ0 = (job.coeffHw (BitVec.ofNat 9 n)).V)
    (hleft : i.bufferLeftQ0 = (job.bufferLeft (job.writeIdx - BitVec.ofNat 9 n)).V)
    (hright : i.bufferRightQ0 = (job.bufferRight (job.writeIdx - BitVec.ofNat 9 n)).V) :
    s.apReady i = false ∧ s.apDone i = false ∧ s.ce0 i = false ∧ AtTap job n (s.step i) := by
  have hstage : s.stage0 = false := by simp [stage0, hs.fsm]
  have hstage1 : s.stage1 = true := by simp [stage1, hs.fsm]
  have hiter : s.apEnableRegPp0Iter0 i = true := by simp [apEnableRegPp0Iter0, hstage, hs.iter0]
  have hready : s.apReady i = false := by simp [apReady, hstage]
  have hdone : s.apDoneInt i = false := by simp [apDoneInt, hready, hs.done]
  have hreadyInt : s.apReadyInt = true := by simp [apReadyInt, hs.iter0, hstage1]
  have hloadL : s.loadL = true := by simp [loadL, hs.icmp, hs.iter0, hstage1]
  have hp1 : s.p1 i = (job.coeffHw (BitVec.ofNat 9 n)).V := by
    have hext : ((job.coeffHw (BitVec.ofNat 9 n)).V.signExtend 79).setWidth 32 =
      (job.coeffHw (BitVec.ofNat 9 n)).V := setWidth_signExtend (by norm_num) _
    simp [p1, hs.iter1, hs.iter0, hstage1, hcoeff, hext]
  have hsum : s.addLn38 i = macc (job.accL n).V (job.bufferLeft (job.writeIdx - BitVec.ofNat 9 n)).V
      (job.coeffHw (BitVec.ofNat 9 n)).V := by
    rw [addLn38, hp1, hs.accL, p0, hs.iter1, hs.iter0, hstage1, hleft]
    rfl
  obtain ⟨hacc, hout⟩ := foldl_firTap_succ job.coeffHw job.bufferLeft job.writeIdx n
  refine ⟨hready, by simp [apDone, hdone, hstart], by simp [FirPipeline.ce0, hstage], ?_⟩
  constructor
  · simp [step, hrst, hs.fsm]
  · simp [step, hrst, hs.iter1, hstage1, hiter]
  · simp [step]
  · simp [step, hrst, hdone, hreadyInt]
  · simp [step, hstage, hs.i]
  · simp [step, hstage, hloadL, hsum, LoopJob.accL, hacc]
  · simp [step, hstage, hs.accR]
  · simp [step, hstage, hloadL, hsum, LoopJob.accL, hout]
  · simp [step, hstage1, hright]
  · simp [step, hstage1, hcoeff]

theorem MidTap.withCoeff (h : MidTap job n s) (hn : n < 512) (word : CoeffT) :
    MidTap (job.withCoeff n word) n s := by
  have hcoeff : ∀ m < n, job.coeffHw (BitVec.ofNat 9 m) =
      (job.withCoeff n word).coeffHw (BitVec.ofNat 9 m) := by
    intro m hm
    symm
    apply Function.update_of_ne
    intro heq
    have hnat := congrArg BitVec.toNat heq
    simp only [BitVec.toNat_ofNat] at hnat
    omega
  refine ⟨h.fsm, h.iter0, h.iter1, h.done, h.icmp, h.i, ?_, ?_⟩
  · rw [h.accL, LoopJob.accL, foldl_firTap_congr _ _ hcoeff]
    rfl
  · rw [h.accR, LoopJob.accR, foldl_firTap_congr _ _ hcoeff]
    rfl

end Phases

end FirPipeline

end FpgaLabor
