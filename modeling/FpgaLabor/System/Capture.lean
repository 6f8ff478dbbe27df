import FpgaLabor.Base.Backlog
import FpgaLabor.Rtl.FifoGenerator
import FpgaLabor.Rtl.FirHwRuns
import FpgaLabor.Rtl.StereoPairing

/-!
# From the serial line to the calls

The receiver, the two sample FIFOs and the generated core on one clock, as `cpu_system.bd` wires them:
`adc_valid_l` and `adc_valid_r` are the write enables, the `valid` outputs offer the samples, and the core's
acknowledges are the read enables. The FIFOs are any two that do what the documentation of the generator says.

No `full` flag is wired, so a word that finds its FIFO full is lost. It never does if the frames are as long
as the longest call and its share of the cycles that the core cannot use (`SteadyCapture`): then the calls
take every word of the serial line, in order and by position (`capture_lossless`).
-/

namespace FpgaLabor

open AudioInterface (Inputs Regs regs lrclk)
open CallTrace (empty)
open FirHwRtl (stepTraced acceptedPair apBlockState1 samplesOf callCycles remainingCycles)
open ShiftRegister

/-! ### The input side -/

/-- One cycle from outside: the codec and the other inputs of the core. An output of a FIFO that is not valid
carries what `fir` has for it. -/
structure CaptureIn where
  codec : Inputs
  fir : FirCycle

/-- `audio_interface_0`, `fifo_generator_1`, `fifo_generator_2` and `fir_hw_0`. -/
structure Capture (F₁ F₂ : FifoGenerator (BitVec 24)) where
  audioInterface : Regs
  fifoGenerator1 : F₁.State
  fifoGenerator2 : F₂.State
  firHw : FirHwRtl × CallTrace FirHwArgs AxisType

namespace Capture

variable {F₁ F₂ : FifoGenerator (BitVec 24)} (s : Capture F₁ F₂) (i : CaptureIn)

/-- `fifo_generator_1_valid`. -/
def valid1 : Bool := F₁.valid s.fifoGenerator1

/-- `fifo_generator_2_valid`. -/
def valid2 : Bool := F₂.valid s.fifoGenerator2

/-- What the core sees in the cycle. -/
def firCycle : FirCycle :=
  { i.fir with
    apRstN := i.codec.rstN
    inputL := if s.valid1 then F₁.dout s.fifoGenerator1 else i.fir.inputL
    inputLApVld := s.valid1
    inputR := if s.valid2 then F₂.dout s.fifoGenerator2 else i.fir.inputR
    inputRApVld := s.valid2 }

/-- `fir_hw_0_input_l_ap_ack` and `fir_hw_0_input_r_ap_ack`. -/
def ack : Bool := s.firHw.1.accept (s.firCycle i)

/-- What `fifo_generator_1` is driven with. -/
def drive1 : BoundedFifo.Drive (BitVec 24) where
  dataIn := AudioInterface.adcData s.audioInterface
  vldIn := AudioInterface.adcValidL s.audioInterface i.codec
  ackOut := s.ack i

/-- What `fifo_generator_2` is driven with. -/
def drive2 : BoundedFifo.Drive (BitVec 24) where
  dataIn := AudioInterface.adcData s.audioInterface
  vldIn := AudioInterface.adcValidR s.audioInterface i.codec
  ackOut := s.ack i

/-- One clock edge out of reset. -/
def next : Capture F₁ F₂ where
  audioInterface := AudioInterface.posedge s.audioInterface i.codec
  fifoGenerator1 := F₁.posedge s.fifoGenerator1 (s.drive1 i)
  fifoGenerator2 := F₂.posedge s.fifoGenerator2 (s.drive2 i)
  firHw := (stepTraced s.firHw (s.firCycle i)).1

/-- Both FIFOs are past their reset. -/
def awake : Bool := !F₁.wrRstBusy s.fifoGenerator1 && !F₂.wrRstBusy s.fifoGenerator2

/-- A word is in a FIFO and has not fallen through. -/
def falling : Bool := F₁.falling s.fifoGenerator1 || F₂.falling s.fifoGenerator2

/-- One of the FIFOs is empty. -/
def starved : Bool := (F₁.contents s.fifoGenerator1).isEmpty || (F₂.contents s.fifoGenerator2).isEmpty

variable {s i}

theorem valid_of_ack (h : s.ack i = true) : s.valid1 = true ∧ s.valid2 = true := by
  simp only [ack, FirHwRtl.accept, apBlockState1, firCycle, Bool.and_eq_true, Bool.not_eq_true',
    Bool.or_eq_false_iff, Bool.not_eq_false'] at h
  exact ⟨h.2.2, h.2.1⟩

theorem given_eq (s : Capture F₁ F₂) (i : CaptureIn) :
    (acceptedPair s.firHw (s.firCycle i)).map (·.1.V) = F₁.given s.fifoGenerator1 (s.drive1 i) ∧
      (acceptedPair s.firHw (s.firCycle i)).map (·.2.V) = F₂.given s.fifoGenerator2 (s.drive2 i) := by
  by_cases hack : s.ack i = true
  · obtain ⟨h1, h2⟩ := valid_of_ack hack
    have haccept : s.firHw.1.accept (s.firCycle i) = true := hack
    simp only [acceptedPair, haccept, if_true, List.map_singleton, FifoGenerator.given, drive1, drive2, hack,
      Bool.true_and]
    rw [valid1] at h1
    rw [valid2] at h2
    simp [firCycle, valid1, valid2, h1, h2]
  · have haccept : ¬ s.firHw.1.accept (s.firCycle i) = true := hack
    simp [acceptedPair, haccept, FifoGenerator.given, drive1, drive2, hack]

theorem blocked_le (s : Capture F₁ F₂) (i : CaptureIn) : (if apBlockState1 (s.firCycle i) then 1 else 0) ≤
    (if s.falling then 1 else 0) + if s.starved then 1 else 0 := by
  have hblocked : apBlockState1 (s.firCycle i) = true → s.falling = true ∨ s.starved = true := by
    simp only [apBlockState1, firCycle, valid1, valid2, falling, starved, FifoGenerator.falling]
    grind
  by_cases hblock : apBlockState1 (s.firCycle i) = true
  · rw [if_pos hblock]
    rcases hblocked hblock with h | h
    · rw [if_pos h]
      exact Nat.le_add_right _ _
    · rw [if_pos h]
      exact Nat.le_add_left _ _
  · simp [hblock]

theorem awake_next (h1 : ∀ q j, F₁.wrRstBusy q = false → F₁.wrRstBusy (F₁.posedge q j) = false)
    (h2 : ∀ q j, F₂.wrRstBusy q = false → F₂.wrRstBusy (F₂.posedge q j) = false) (h : s.awake = true) :
    (s.next i).awake = true := by
  simp only [awake, Bool.and_eq_true, Bool.not_eq_true'] at h ⊢
  exact ⟨h1 _ _ h.1, h2 _ _ h.2⟩

end Capture

/-! ### Runs -/

/-- The FIFOs, the registers at power-on, the cycle of the reset and those after it. -/
structure CaptureRun where
  fifo1 : FifoGenerator (BitVec 24)
  fifo2 : FifoGenerator (BitVec 24)
  adcDataShr : BitVec 32
  core : FirHwRtl
  reset : FirCycle
  inp : ℕ → CaptureIn

namespace CaptureRun

variable (u : CaptureRun)

/-- The codec's signals. -/
def codec (t : ℕ) : Inputs := (u.inp t).codec

/-- The input side after the reset. -/
def start : Capture u.fifo1 u.fifo2 :=
  ⟨AudioInterface.afterReset u.adcDataShr, u.fifo1.afterReset, u.fifo2.afterReset, ((u.core.step u.reset).1, empty)⟩

/-- The input side in cycle `t` after the reset. -/
def stateIn (t : ℕ) : Capture u.fifo1 u.fifo2 := stateAt Capture.next u.start u.inp t

/-- What the core sees in cycle `t`. -/
def cycle (t : ℕ) : FirCycle := (u.stateIn t).firCycle (u.inp t)

/-- What the core sees in the first `T` cycles. -/
def cycles (T : ℕ) : List FirCycle := (List.range T).map u.cycle

/-- The calls that have begun in the first `T` cycles. -/
def calls (T : ℕ) : List FirHwArgs := (u.stateIn T).firHw.2.calls

/-- The words in `fifo_generator_1` in cycle `t`. -/
def fifoWords1 (t : ℕ) : List (BitVec 24) := u.fifo1.contents (u.stateIn t).fifoGenerator1

/-- The words in `fifo_generator_2` in cycle `t`. -/
def fifoWords2 (t : ℕ) : List (BitVec 24) := u.fifo2.contents (u.stateIn t).fifoGenerator2

/-- The word that the receiver shows in cycle `t`. -/
def word (t : ℕ) : BitVec 24 := AudioInterface.adcData (regs u.adcDataShr u.codec t)

/-- The cycles before `T` that write `fifo_generator_1`. -/
def leftWrites (T : ℕ) : List ℕ := AudioInterface.leftWrites u.adcDataShr u.codec 0 T

/-- The cycles before `T` that write `fifo_generator_2`. -/
def rightWrites (T : ℕ) : List ℕ := AudioInterface.rightWrites u.adcDataShr u.codec 0 T

theorem stateIn_succ (t : ℕ) : u.stateIn (t + 1) = (u.stateIn t).next (u.inp t) := rfl

theorem audioInterface_stateIn (t : ℕ) : (u.stateIn t).audioInterface = regs u.adcDataShr u.codec t := by
  induction t with
  | zero => rfl
  | succ t ih =>
    rw [stateIn_succ, Capture.next, ih]
    rfl

theorem firHw_stateIn (T : ℕ) :
    (u.stateIn T).firHw = Mealy.runState stepTraced ((u.core.step u.reset).1, empty) (u.cycles T) := by
  induction T with
  | zero => rfl
  | succ T ih =>
    rw [cycles, List.range_succ, List.map_append, List.map_singleton, Mealy.runState_concat, stateIn_succ,
      Capture.next, ih]
    rfl

theorem take_cycles {m T : ℕ} (h : m ≤ T) : (u.cycles T).take m = u.cycles m := by
  rw [cycles, cycles, ← List.map_take, List.take_range, Nat.min_eq_left h]

theorem leftWrites_succ (T : ℕ) : u.leftWrites (T + 1) = u.leftWrites T ++
    if ((u.stateIn T).drive1 (u.inp T)).vldIn then [T] else [] := by
  rw [Capture.drive1, audioInterface_stateIn]
  exact samplesIn_succ _ (Nat.zero_le T)

theorem rightWrites_succ (T : ℕ) : u.rightWrites (T + 1) = u.rightWrites T ++
    if ((u.stateIn T).drive2 (u.inp T)).vldIn then [T] else [] := by
  rw [Capture.drive2, audioInterface_stateIn]
  exact samplesIn_succ _ (Nat.zero_le T)

/-- A rise of LRCLK comes out of the synchroniser. -/
def frameEnd (t : ℕ) : Bool := AudioInterface.lrclkRise (regs u.adcDataShr u.codec t)

/-- The cycle is lost for the core as far as its surroundings go: its sink does not take a beat, or a word has
not fallen through. -/
def lost (t : ℕ) : ℕ :=
  (if FirHwRtl.stalled (u.stateIn t).firHw (u.cycle t) then 1 else 0) + if (u.stateIn t).falling then 1 else 0

end CaptureRun

/-- The core is reset without samples, and audio is enabled from cycle `enable` on, when the FIFOs are past
their reset. A frame of LRCLK takes at least `period` cycles, which pay for the longest call and `share` lost
cycles; in no period more cycles are lost than `burst` and a `share` for each frame; and the FIFOs have room
for what comes in meanwhile. -/
structure SteadyCapture extends CaptureRun where
  depth : ℕ
  lawful1 : fifo1.Lawful depth
  lawful2 : fifo2.Lawful depth
  powerOn : core.PowerOn
  resets : reset.apRstN = false
  idle : apBlockState1 reset = true
  runs : ∀ t, (toCaptureRun.codec t).rstN = true
  enable : ℕ
  enabled : ∀ t, (toCaptureRun.codec t).en = decide (enable ≤ t)
  awake : (toCaptureRun.stateIn enable).awake = true
  period : ℕ
  share : ℕ
  burst : ℕ
  spaced : ∀ i j, i < j → rise (lrclk toCaptureRun.codec) i = true → rise (lrclk toCaptureRun.codec) j = true →
    i + period ≤ j
  paid : 1030 + share ≤ period
  bounded : ∀ s t, s ≤ t → ∑ k ∈ Finset.Ico s t, toCaptureRun.lost k ≤
    burst + share * Backlog.arrivals toCaptureRun.frameEnd s t
  deep : burst + period + 3090 < 1030 * depth

namespace SteadyCapture

variable {u : SteadyCapture} {t : ℕ}

/-- No word has been lost so far: every word is in a call or in its FIFO. -/
structure Kept (u : SteadyCapture) (t : ℕ) : Prop where
  inv : FirHwRtl.Inv (u.stateIn t).firHw.1 (u.stateIn t).firHw.2
  left : (u.calls t).map (·.inputL.V) ++ u.fifoWords1 t = (u.leftWrites t).map u.word
  right : (u.calls t).map (·.inputR.V) ++ u.fifoWords2 t = (u.rightWrites t).map u.word

theorem apRstN_cycle (u : SteadyCapture) (t : ℕ) : (u.cycle t).apRstN = true := u.runs t

theorem kept_zero (u : SteadyCapture) : u.Kept 0 := by
  refine ⟨.state1 (u.powerOn.reset u.resets u.idle), ?_, ?_⟩
  · exact u.lawful1.afterReset
  · exact u.lawful2.afterReset

theorem awake_of_le (u : SteadyCapture) (ht : u.enable ≤ t) : (u.stateIn t).awake = true := by
  induction t, ht using Nat.le_induction with
  | base => exact u.awake
  | succ t _ ih => exact Capture.awake_next u.lawful1.wrRstBusy u.lawful2.wrRstBusy ih

theorem awake_of_write (u : SteadyCapture) (hwrite : ((u.stateIn t).drive1 (u.inp t)).vldIn = true ∨
    ((u.stateIn t).drive2 (u.inp t)).vldIn = true) :
    u.fifo1.wrRstBusy (u.stateIn t).fifoGenerator1 = false ∧
      u.fifo2.wrRstBusy (u.stateIn t).fifoGenerator2 = false := by
  have hen : (u.codec t).en = true := by
    rcases hwrite with h | h
    · exact (Bool.and_eq_true_iff.mp h).2
    · exact (Bool.and_eq_true_iff.mp h).2
  rw [u.enabled, decide_eq_true_eq] at hen
  simpa [Capture.awake] using u.awake_of_le hen

theorem Kept.samples (h : u.Kept t) : (u.calls (t + 1)).map samplesOf =
    (u.calls t).map samplesOf ++ acceptedPair (u.stateIn t).firHw (u.cycle t) :=
  FirHwRtl.callMachine.calls_record h.inv

theorem Kept.calls (h : u.Kept t) :
    (u.calls (t + 1)).map (·.inputL.V) = (u.calls t).map (·.inputL.V) ++
      u.fifo1.given (u.stateIn t).fifoGenerator1 ((u.stateIn t).drive1 (u.inp t)) ∧
    (u.calls (t + 1)).map (·.inputR.V) = (u.calls t).map (·.inputR.V) ++
      u.fifo2.given (u.stateIn t).fifoGenerator2 ((u.stateIn t).drive2 (u.inp t)) := by
  obtain ⟨hgiven1, hgiven2⟩ := (u.stateIn t).given_eq (u.inp t)
  have hleft := congrArg (List.map fun p : DinT × DinT => p.1.V) h.samples
  have hright := congrArg (List.map fun p : DinT × DinT => p.2.V) h.samples
  rw [List.map_append, List.map_map, List.map_map] at hleft hright
  rw [← hgiven1, ← hgiven2]
  exact ⟨hleft, hright⟩

theorem Kept.succ (h : u.Kept t) (h1 : (u.fifoWords1 t).length < u.depth) (h2 : (u.fifoWords2 t).length < u.depth) :
    u.Kept (t + 1) := by
  obtain ⟨hleft, hright⟩ := h.calls
  have hword : u.word t = AudioInterface.adcData (u.stateIn t).audioInterface := by
    rw [CaptureRun.audioInterface_stateIn]
    rfl
  have hone : ∀ b : Bool, (if b then [t] else []).map u.word =
      if b then [AudioInterface.adcData (u.stateIn t).audioInterface] else [] := by
    intro b
    rw [← hword]
    split_ifs <;> rfl
  refine ⟨h.inv.step (u.apRstN_cycle t), ?_, ?_⟩
  · rw [hleft, CaptureRun.leftWrites_succ, List.map_append, hone]
    exact u.lawful1.kept (fun hwrite => ⟨(u.awake_of_write (.inl hwrite)).1, h1⟩) h.left
  · rw [hright, CaptureRun.rightWrites_succ, List.map_append, hone]
    exact u.lawful2.kept (fun hwrite => ⟨(u.awake_of_write (.inr hwrite)).2, h2⟩) h.right

/-! ### The FIFOs never overflow -/

theorem rise_of_frameEnd {T : ℕ} (h : u.frameEnd T = true) : ∃ j, T = j + 2 ∧ rise (lrclk u.codec) j = true := by
  rw [CaptureRun.frameEnd, AudioInterface.lrclkRise_eq u.runs, Bool.and_eq_true, Bool.not_eq_true'] at h
  exact (rise_iff_delayed _ T).mp h

theorem leftWrites_eq (u : SteadyCapture) (T : ℕ) :
    u.leftWrites T = (samplesIn (fall (lrclk u.codec)) (u.enable - 2) (T - 2)).map (· + 2) := by
  rw [← AudioInterface.leftWrites_eq u.runs (fun t ht => (u.enabled t).trans (decide_eq_true ht))]
  apply samplesIn_from
  intro j hj
  rw [AudioInterface.adcValidL, Bool.and_eq_true] at hj
  exact of_decide_eq_true ((u.enabled j).symm.trans hj.2)

theorem rightWrites_eq (u : SteadyCapture) (T : ℕ) :
    u.rightWrites T = (samplesIn (rise (lrclk u.codec)) (u.enable - 2) (T - 2)).map (· + 2) := by
  rw [← AudioInterface.rightWrites_eq u.runs (fun t ht => (u.enabled t).trans (decide_eq_true ht))]
  apply samplesIn_from
  intro j hj
  rw [AudioInterface.adcValidR, Bool.and_eq_true] at hj
  exact of_decide_eq_true ((u.enabled j).symm.trans hj.2)

theorem length_writes (u : SteadyCapture) (T : ℕ) : (u.leftWrites T).length ≤ (u.rightWrites T).length + 1 ∧
    (u.rightWrites T).length ≤ (u.leftWrites T).length + 1 := by
  rw [leftWrites_eq, rightWrites_eq, List.length_map, List.length_map]
  by_cases hlt : u.enable - 2 ≤ T - 2
  · have halternate := length_samplesIn_fall (lrclk u.codec) hlt
    split_ifs at halternate <;> omega
  · simp [samplesIn, show T - 2 - (u.enable - 2) = 0 by omega]

theorem Kept.lengths (h : u.Kept t) :
    (u.calls t).length + (u.fifoWords1 t).length = (u.leftWrites t).length ∧
      (u.calls t).length + (u.fifoWords2 t).length = (u.rightWrites t).length := by
  have hleft := congrArg List.length h.left
  have hright := congrArg List.length h.right
  rw [List.length_append, List.length_map, List.length_map] at hleft hright
  exact ⟨hleft, hright⟩

/-- The cycles that the core still takes for what has been captured. -/
def work (u : SteadyCapture) (t : ℕ) : ℕ :=
  remainingCycles (u.stateIn t).firHw.1 + 1030 * (u.fifoWords2 t).length

/-- One of the FIFOs is empty in cycle `t`. -/
def starved (u : SteadyCapture) (t : ℕ) : Bool := (u.stateIn t).starved

theorem Kept.work_of_starved (h : u.Kept t) (hstarved : u.starved t = true) : u.work t ≤ 2059 := by
  obtain ⟨hleft, hright⟩ := h.lengths
  have hwrites := u.length_writes t
  have hremaining := FirHwRtl.remainingCycles_le (u.stateIn t).firHw.1
  have hempty : (u.fifoWords1 t).length = 0 ∨ (u.fifoWords2 t).length = 0 := by
    simpa [starved, Capture.starved, CaptureRun.fifoWords1, CaptureRun.fifoWords2] using hstarved
  unfold work
  omega

theorem callCycles_le (s : FirHwRtl) (i : FirCycle) : callCycles s i ≤ 1030 * if s.accept i then 1 else 0 := by
  have htap := s.control.intTapNumM1.isLt
  unfold callCycles
  split_ifs <;> omega

theorem Kept.length_fifoWords2_succ (h : u.Kept t) (h' : u.Kept (t + 1)) :
    (u.fifoWords2 (t + 1)).length + (if (u.stateIn t).ack (u.inp t) then 1 else 0) ≤
      (u.fifoWords2 t).length + if u.frameEnd t then 1 else 0 := by
  have hbefore := h.lengths.2
  have hafter := h'.lengths.2
  have hcalls := congrArg List.length h.samples
  have haccepted : (acceptedPair (u.stateIn t).firHw (u.cycle t)).length =
      if (u.stateIn t).ack (u.inp t) then 1 else 0 := by
    change (if (u.stateIn t).ack (u.inp t) then _ else _ : List (DinT × DinT)).length = _
    split_ifs <;> rfl
  have hwritten : (if ((u.stateIn t).drive2 (u.inp t)).vldIn then [t] else []).length ≤
      if u.frameEnd t then 1 else 0 := by
    have hframe : u.frameEnd t = AudioInterface.lrclkRise (u.stateIn t).audioInterface := by
      rw [CaptureRun.audioInterface_stateIn]
      rfl
    rw [hframe]
    by_cases hrise : AudioInterface.lrclkRise (u.stateIn t).audioInterface = true
    · rw [if_pos hrise]
      split_ifs <;> simp
    · simp [Capture.drive2, AudioInterface.adcValidR, hrise]
  rw [List.length_append, List.length_map, List.length_map, haccepted] at hcalls
  rw [CaptureRun.rightWrites_succ, List.length_append] at hafter
  omega

/-- A cycle that is not lost serves the backlog. -/
theorem Kept.work_succ (h : u.Kept t) (h' : u.Kept (t + 1)) :
    u.work (t + 1) + 1 ≤ u.work t + 1030 * (if u.frameEnd t then 1 else 0) + u.lost t +
      if u.starved t then 1 else 0 := by
  have hcycles : remainingCycles (u.stateIn (t + 1)).firHw.1 + 1 ≤
      remainingCycles (u.stateIn t).firHw.1 + FirHwRtl.cycleCost (u.stateIn t).firHw (u.cycle t) :=
    FirHwRtl.remainingCycles_step h.inv (u.apRstN_cycle t)
  have hcall : callCycles (u.stateIn t).firHw.1 (u.cycle t) ≤
      1030 * if (u.stateIn t).ack (u.inp t) then 1 else 0 := callCycles_le _ _
  have hlength := h.length_fifoWords2_succ h'
  have hblock := (u.stateIn t).blocked_le (u.inp t)
  have hidle : (if FirHwRtl.starved (u.stateIn t).firHw (u.cycle t) then 1 else 0) ≤
      if apBlockState1 (u.cycle t) then 1 else 0 := by
    by_cases hblocked : apBlockState1 (u.cycle t) = true
    · rw [if_pos hblocked]
      split_ifs <;> omega
    · simp [FirHwRtl.starved, hblocked]
  simp only [FirHwRtl.cycleCost, Mealy.callCost] at hcycles
  change (if apBlockState1 (u.cycle t) then 1 else 0) ≤ _ at hblock
  unfold work CaptureRun.lost starved
  omega

theorem spaced_frameEnd (u : SteadyCapture) {i k : ℕ} (hik : i < k) (hi : u.frameEnd i = true)
    (hk : u.frameEnd k = true) : i + u.period ≤ k := by
  obtain ⟨j, rfl, hj⟩ := rise_of_frameEnd hi
  obtain ⟨j', rfl, hj'⟩ := rise_of_frameEnd hk
  have hspaced := u.spaced j j' (by omega) hj hj'
  omega

theorem work_le (u : SteadyCapture) (n : ℕ) (h : ∀ t ≤ n, u.Kept t) : u.work n ≤ 2060 + u.burst + u.period := by
  have hstep := fun t (ht : t < n) => (h t (Nat.le_of_lt ht)).work_succ (h (t + 1) ht)
  have hidle := fun t (ht : t < n) => (h t (Nat.le_of_lt ht)).work_of_starved
  have h0 : u.work 0 ≤ 2059 := by
    apply u.kept_zero.work_of_starved
    have hstart : u.starved 0 =
        ((u.fifo1.contents u.fifo1.afterReset).isEmpty || (u.fifo2.contents u.fifo2.afterReset).isEmpty) := rfl
    rw [hstart, u.lawful1.afterReset]
    rfl
  exact Backlog.work_le hstep hidle h0 (fun i k => u.spaced_frameEnd) (fun s hs => u.bounded s n hs) u.paid

theorem kept (u : SteadyCapture) (n : ℕ) : ∀ t ≤ n, u.Kept t := by
  induction n with
  | zero =>
    intro t ht
    rw [Nat.le_zero.mp ht]
    exact u.kept_zero
  | succ n ih =>
    intro t ht
    rcases Nat.le_succ_iff.mp ht with hle | rfl
    · exact ih t hle
    · have hkept := ih n (le_refl n)
      have hwork := u.work_le n ih
      have hdeep := u.deep
      obtain ⟨hleft, hright⟩ := hkept.lengths
      have hwrites := u.length_writes n
      unfold work at hwork
      exact hkept.succ (by omega) (by omega)

theorem frames_le (u : SteadyCapture) (T : ℕ) :
    1030 * (samplesIn (rise (lrclk u.codec)) (u.enable - 2) (T - 2)).length ≤
      1030 * (u.calls T).length + 2060 + u.burst + u.period := by
  have hwork := u.work_le T fun t _ => u.kept t t (le_refl t)
  have hlengths := (u.kept T T (le_refl T)).lengths.2
  rw [rightWrites_eq, List.length_map] at hlengths
  unfold work at hwork
  omega

end SteadyCapture

/-! ### The words -/

/-- The word is what the line carried before LRCLK changed with sample `j`: wherever 32 rising bit clocks
began, the data samples at the first 24 of them. -/
def Carries (codec : ℕ → Inputs) (j : ℕ) (w : BitVec 24) : Prop :=
  ∀ j₁ ≤ j, (samplesIn (rise fun k => (codec k).codecBclk) j₁ j).length = 32 →
    ∀ m < 24, ∃ r, (samplesIn (rise fun k => (codec k).codecBclk) j₁ j)[m]? = some r ∧
      w.getLsbD (23 - m) = (codec r).codecSdout

theorem carries_word (u : SteadyCapture) (j : ℕ) : Carries u.codec j (u.word (j + 2)) := by
  intro j₁ hj₁ hlen m hm
  refine ⟨_, List.getElem?_eq_getElem (show m < _ by omega), ?_⟩
  rw [CaptureRun.word, AudioInterface.adcData, AudioInterface.adcDataShr_eq u.runs, Nat.add_sub_cancel,
    samplesIn_append _ (Nat.zero_le j₁) hj₁]
  rw [BitVec.getLsbD_extractLsb', decide_eq_true (by omega), Bool.true_and,
    getLsbD_foldl_shiftIn _ _ (by omega) (by simp; omega), List.getElem_map, List.getElem_append_right]
  · congr 3
    simp only [List.length_map, List.length_append]
    omega
  · simp only [List.length_map, List.length_append]
    omega

theorem exists_of_kept {calls : List FirHwArgs} {input : FirHwArgs → BitVec 24} {word : ℕ → BitVec 24}
    {fifo : List (BitVec 24)} {edges : List ℕ} (h : calls.map input ++ fifo = edges.map (word ∘ (· + 2))) {n : ℕ}
    (hn : n < calls.length) : ∃ j, edges[n]? = some j ∧ input calls[n] = word (j + 2) := by
  have hget : (calls.map input ++ fifo)[n]? = some (input calls[n]) := by
    rw [List.getElem?_append_left (by rwa [List.length_map]), List.getElem?_map, List.getElem?_eq_getElem hn,
      Option.map_some]
  rw [h, List.getElem?_map, Option.map_eq_some_iff] at hget
  obtain ⟨j, hj, hword⟩ := hget
  exact ⟨j, hj, hword.symm⟩

/-- The `n`-th fall and the `n`-th rise are of one frame if audio was enabled in a high half. -/
theorem SteadyCapture.nextRise (u : SteadyCapture) {T n j j' : ℕ}
    (hhigh : prev (lrclk u.codec) (u.enable - 2) = true)
    (hj : (samplesIn (fall (lrclk u.codec)) (u.enable - 2) (T - 2))[n]? = some j)
    (hj' : (samplesIn (rise (lrclk u.codec)) (u.enable - 2) (T - 2))[n]? = some j') :
    NextRise (lrclk u.codec) j j' := by
  obtain ⟨hlo, hhi, -⟩ := mem_samplesIn.mp (List.mem_of_getElem? hj)
  exact (Paired.of_high hhigh (Nat.le_of_lt (Nat.lt_of_le_of_lt hlo hhi))).next n j j' hj hj'

/-- **From the serial line to the calls.** Under any timing of the FIFOs, the sink and the bus that leaves the
core its share: call `n` takes the words that LRCLK ended with its `n`-th fall and its `n`-th rise since audio
was enabled, which are of one frame if it was enabled in a high half; and the calls are behind the frames by
no more than a bounded backlog. -/
theorem capture_lossless (u : SteadyCapture) (T : ℕ) :
    (∀ n, ∀ hn : n < (u.calls T).length, ∃ j j',
      (samplesIn (fall (lrclk u.codec)) (u.enable - 2) (T - 2))[n]? = some j ∧
      (samplesIn (rise (lrclk u.codec)) (u.enable - 2) (T - 2))[n]? = some j' ∧
      Carries u.codec j (u.calls T)[n].inputL.V ∧ Carries u.codec j' (u.calls T)[n].inputR.V ∧
      (prev (lrclk u.codec) (u.enable - 2) = true → NextRise (lrclk u.codec) j j')) ∧
    1030 * (samplesIn (rise (lrclk u.codec)) (u.enable - 2) (T - 2)).length ≤
      1030 * (u.calls T).length + 2060 + u.burst + u.period := by
  have hkept := u.kept T T (le_refl T)
  have hl := hkept.left
  have hr := hkept.right
  rw [u.leftWrites_eq, List.map_map] at hl
  rw [u.rightWrites_eq, List.map_map] at hr
  refine ⟨fun n hn => ?_, u.frames_le T⟩
  obtain ⟨j, hj, hlw⟩ := exists_of_kept hl hn
  obtain ⟨j', hj', hrw⟩ := exists_of_kept hr hn
  refine ⟨j, j', hj, hj', ?_, ?_, fun hhigh => u.nextRise hhigh hj hj'⟩
  · rw [hlw]
    exact carries_word u j
  · rw [hrw]
    exact carries_word u j'

/-! ### A slow codec -/

/-- LRCLK of period 2048 and 32 bit clocks in each half, with audio enabled in a high half. -/
def slowWave (t : ℕ) : Inputs where
  rstN := true
  en := decide (3500 ≤ t)
  codecLrclk := decide (t / 1024 % 2 = 1)
  codecBclk := decide (t / 16 % 2 = 1)
  codecSdout := decide (t % 96 < 32)

/-- FIFOs of the generated depth without latency, under any traffic on the bus. -/
def slowRun (fir : ℕ → FirCycle) : CaptureRun where
  fifo1 := .ofBuffer 512 0
  fifo2 := .ofBuffer 512 0
  adcDataShr := 0
  core := FirHwRtl.initial
  reset := FirHwRtl.readyCycle false 0 0
  inp t := ⟨slowWave t, fir t⟩

theorem rise_slowWave_iff (fir : ℕ → FirCycle) (j : ℕ) :
    rise (lrclk (slowRun fir).codec) j = true ↔ j % 2048 = 1024 := by
  cases j with
  | zero => exact iff_of_false Bool.false_ne_true (by decide)
  | succ j =>
    simp only [rise, prev, lrclk, CaptureRun.codec, slowRun, slowWave, Bool.and_eq_true, Bool.not_eq_true',
      decide_eq_true_eq, decide_eq_false_iff_not]
    omega

theorem lost_slowRun (fir : ℕ → FirCycle) (hfir : ∀ t, (fir t).resTready = true) (t : ℕ) :
    (slowRun fir).lost t = 0 := by
  have hready : ((slowRun fir).cycle t).resTready = true := hfir t
  have hstalled : FirHwRtl.stalled ((slowRun fir).stateIn t).firHw ((slowRun fir).cycle t) = false := by
    simp [FirHwRtl.stalled, AxisSlices.stalled, hready]
  have hfalling : ((slowRun fir).stateIn t).falling = false := by
    simp [Capture.falling, FifoGenerator.falling, slowRun, FifoGenerator.ofBuffer]
  simp [CaptureRun.lost, hstalled, hfalling]

/-- A sink that is always ready loses nothing. -/
def slowCapture (fir : ℕ → FirCycle) (hfir : ∀ t, (fir t).resTready = true) : SteadyCapture where
  toCaptureRun := slowRun fir
  depth := 512
  lawful1 := FifoGenerator.lawful_ofBuffer 512 0
  lawful2 := FifoGenerator.lawful_ofBuffer 512 0
  powerOn := FirHwRtl.initial_powerOn
  resets := rfl
  idle := rfl
  runs _ := rfl
  enable := 3500
  enabled _ := rfl
  awake := rfl
  period := 2048
  share := 0
  burst := 0
  spaced i j hij hi hj := by
    rw [rise_slowWave_iff] at hi hj
    omega
  paid := by decide
  bounded s t _ := by
    rw [Finset.sum_eq_zero fun k _ => lost_slowRun fir hfir k]
    exact Nat.zero_le _
  deep := show 0 + 2048 + 3090 < 1030 * 512 by decide

theorem high_slowCapture (fir : ℕ → FirCycle) (hfir : ∀ t, (fir t).resTready = true) :
    prev (lrclk (slowCapture fir hfir).codec) ((slowCapture fir hfir).enable - 2) = true := by
  have hlrclk : lrclk (slowCapture fir hfir).codec = fun t => decide (t / 1024 % 2 = 1) := rfl
  have henable : (slowCapture fir hfir).enable = 3500 := rfl
  rw [hlrclk, henable]
  decide

theorem le_length_calls_slow (fir : ℕ → FirCycle) (hfir : ∀ t, (fir t).resTready = true) (n : ℕ) {T : ℕ}
    (hT : 2048 * (n + 4) + 5120 ≤ T) : n ≤ ((slowCapture fir hfir).calls T).length := by
  have hframes := (slowCapture fir hfir).frames_le T
  have hrises : n + 4 ≤ (samplesIn (rise (lrclk (slowRun fir).codec)) (3500 - 2) (T - 2)).length := by
    apply le_length_samplesIn (f := fun k => 2048 * k + 5120)
    · intro k k' hk
      exact Nat.add_lt_add_right (Nat.mul_lt_mul_of_pos_left hk (by decide)) _
    · intro k hk
      refine ⟨?_, ?_, (rise_slowWave_iff fir _).mpr ?_⟩ <;> omega
  change 1030 * (samplesIn (rise (lrclk (slowRun fir).codec)) (3500 - 2) (T - 2)).length ≤
    1030 * ((slowCapture fir hfir).calls T).length + 2060 + 0 + 2048 at hframes
  omega

/-- The slow codec with all channels of the bus busy. -/
def slowBusy : SteadyCapture := slowCapture (fun _ => FirHwRtl.readyCycle true 0 0) fun _ => rfl

theorem capture_lossless_slow : ∃ hn : 479 < (slowBusy.calls 1000000).length, ∃ j j',
    NextRise (lrclk slowBusy.codec) j j' ∧
    (samplesIn (fall (lrclk slowBusy.codec)) 3498 999998)[479]? = some j ∧
    (samplesIn (rise (lrclk slowBusy.codec)) 3498 999998)[479]? = some j' ∧
    Carries slowBusy.codec j (slowBusy.calls 1000000)[479].inputL.V ∧
    Carries slowBusy.codec j' (slowBusy.calls 1000000)[479].inputR.V := by
  have hlen : 480 ≤ (slowBusy.calls 1000000).length := le_length_calls_slow _ _ 480 (by decide)
  obtain ⟨j, j', hj, hj', hl, hr, hnext⟩ := (capture_lossless slowBusy 1000000).1 479 hlen
  exact ⟨hlen, j, j', hnext (high_slowCapture _ _), hj, hj', hl, hr⟩

end FpgaLabor
