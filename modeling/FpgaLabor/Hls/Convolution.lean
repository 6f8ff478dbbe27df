import FpgaLabor.Hls.FirHw
import Mathlib.Algebra.BigOperators.Group.Finset.Basic

/-!
# What `fir_hw` computes over a whole run

The abstract filter knows nothing of buffers, indices and formats: `tapSum` is the sum over the
taps of the input of `i` calls ago times its coefficient, each product truncated to the
accumulator's resolution. The core refines it: after any calls both buffers are windows on the
inputs so far (`FirHolds`), so every emitted word is `tapSum` over the real inputs, truncated and
wrapped to `dout_t` (`firHw_words`).
-/

namespace FpgaLabor

open HistoryRing (ago Holds)

/-- The sum the accumulator stands for, where `x i` is the raw input of `i` calls ago. -/
def tapSum (coeffHw : BitVec 9 → CoeffT) (tapNumM1 : BitVec 9) (x : ℕ → ℤ) : ℤ :=
  ∑ i ∈ Finset.range (tapNumM1.toNat + 1), x i * (coeffHw (BitVec.ofNat 9 i)).raw / 2 ^ 8

/-- The raw input of call `k`, `0` for `k` before the first call. -/
def rawInput (input : FirHwArgs → DinT) (calls : List FirHwArgs) (k : ℤ) : ℤ :=
  if 0 ≤ k then (calls[k.toNat]?.map fun args => (input args).raw).getD 0 else 0

/-! ### The loop -/

theorem firTap_ofRaw (coeffHw : BitVec 9 → CoeffT) (buffer : BitVec 9 → DinT) (writeIdx : BitVec 9)
    (z : ℤ) (i : ℕ) :
    firTap coeffHw buffer writeIdx (ApFixed.ofRaw z) i =
      ApFixed.ofRaw (z + (buffer (writeIdx - BitVec.ofNat 9 i)).raw *
        (coeffHw (BitVec.ofNat 9 i)).raw / 2 ^ 8) := by
  rw [firTap, ApFixed.addAssign_eq (k := 31) (by norm_num) (by norm_num) (by norm_num),
    ApFixed.ofRaw_raw_add, ApFixed.raw_mul (by norm_num) (by norm_num),
    ApFixed.raw_assign_of_le (by norm_num) (by norm_num)]
  congr 2
  generalize (buffer (writeIdx - BitVec.ofNat 9 i)).raw = sample
  generalize (coeffHw (BitVec.ofNat 9 i)).raw = c
  have hscale : sample * 2 ^ (48 - 2 - (24 - 1)) * c = sample * c * 2 ^ 23 := by ring
  rw [hscale, show (2 : ℤ) ^ 31 = 2 ^ 8 * 2 ^ 23 by norm_num]
  exact Int.mul_ediv_mul_of_pos_left _ _ (by norm_num)

theorem foldl_firTap (coeffHw : BitVec 9 → CoeffT) (buffer : BitVec 9 → DinT) (writeIdx : BitVec 9)
    (n : ℕ) :
    (List.range n).foldl (firTap coeffHw buffer writeIdx) 0 =
      ApFixed.ofRaw (∑ i ∈ Finset.range n, (buffer (writeIdx - BitVec.ofNat 9 i)).raw *
        (coeffHw (BitVec.ofNat 9 i)).raw / 2 ^ 8) := by
  induction n with
  | zero => rfl
  | succ n ih =>
    rw [List.range_succ, List.foldl_append, List.foldl_cons, List.foldl_nil, ih, firTap_ofRaw,
      Finset.sum_range_succ]

theorem channelWord_eq {coeffHw : BitVec 9 → CoeffT} {tapNumM1 : BitVec 9} {buffer : BitVec 9 → DinT}
    {writeIdx : BitVec 9} {x : ℕ → ℤ}
    (hx : ∀ i < 2 ^ 9, (buffer (writeIdx - BitVec.ofNat 9 i)).raw = x i) :
    channelWord coeffHw tapNumM1 buffer writeIdx =
      ApFixed.ofRaw (tapSum coeffHw tapNumM1 x / 2 ^ 15) := by
  have htaps := tapNumM1.isLt
  rw [channelWord, foldl_firTap,
    ApFixed.assign_ofRaw (k := 15) (by norm_num) (by norm_num) (by norm_num)]
  congr 2
  refine Finset.sum_congr rfl fun i hi => ?_
  rw [Finset.mem_range] at hi
  rw [hx i (by omega)]

/-! ### The buffers are windows on the inputs so far -/

/-- Both buffers hold the last 512 inputs of `calls`, the newest just before the write index. -/
def FirHolds (calls : List FirHwArgs) (s : FirHwState) : Prop :=
  Holds 0 (calls.map FirHwArgs.inputL) s.writeIdx s.bufferLeft ∧
    Holds 0 (calls.map FirHwArgs.inputR) s.writeIdx s.bufferRight

theorem firHolds_initial : FirHolds [] FirHwState.initial :=
  ⟨HistoryRing.holds_nil 0 0, HistoryRing.holds_nil 0 0⟩

theorem FirHolds.step {calls : List FirHwArgs} {s : FirHwState} (h : FirHolds calls s)
    (args : FirHwArgs) : FirHolds (calls ++ [args]) (firHw s args).1 := by
  obtain ⟨hleft, hright⟩ := h
  refine ⟨?_, ?_⟩
  · rw [List.map_append, firHw_writeIdx, firHw_bufferLeft]
    exact hleft.write args.inputL
  · rw [List.map_append, firHw_writeIdx, firHw_bufferRight]
    exact hright.write args.inputR

theorem firHolds_run (calls : List FirHwArgs) :
    FirHolds calls (Mealy.runState firHw FirHwState.initial calls) :=
  Mealy.runState_induction firHw firHolds_initial (fun _ args _ h => h.step args) calls

theorem raw_ago_take (input : FirHwArgs → DinT) (calls : List FirHwArgs) (n i : ℕ)
    (hn : n < calls.length) :
    (ago 0 ((calls.take (n + 1)).map input) i).raw = rawInput input calls (n - i) := by
  rw [List.map_take, HistoryRing.ago_take _ _ _ _ (by simpa using hn), rawInput]
  by_cases hi : i ≤ n
  · have hidx : ((n : ℤ) - i).toNat = n - i := by omega
    rw [if_pos hi, if_pos (by omega), hidx, List.getElem?_map,
      List.getElem?_eq_getElem (by omega : n - i < calls.length)]
    rfl
  · rw [if_neg hi, if_neg (by omega), ApFixed.raw_zero]

/-- After call `n` has stored its inputs, index `write_idx - i` selects the inputs of exactly `i`
calls ago. -/
theorem firHw_select (calls : List FirHwArgs) (n i : ℕ) (hn : n < calls.length) (hi : i < 2 ^ 9) :
    ((Mealy.runState firHw FirHwState.initial (calls.take (n + 1))).bufferLeft
        ((Mealy.runState firHw FirHwState.initial (calls.take n)).writeIdx - BitVec.ofNat 9 i)).raw =
      rawInput FirHwArgs.inputL calls (n - i) ∧
    ((Mealy.runState firHw FirHwState.initial (calls.take (n + 1))).bufferRight
        ((Mealy.runState firHw FirHwState.initial (calls.take n)).writeIdx - BitVec.ofNat 9 i)).raw =
      rawInput FirHwArgs.inputR calls (n - i) := by
  obtain ⟨hleft, hright⟩ := firHolds_run (calls.take n)
  have htake : calls.take (n + 1) = calls.take n ++ [calls[n]] := (List.take_concat_get' calls n hn).symm
  rw [← raw_ago_take _ _ _ _ hn, ← raw_ago_take _ _ _ _ hn]
  rw [htake, Mealy.runState_concat, firHw_bufferLeft, firHw_bufferRight, List.map_append,
    List.map_append]
  exact ⟨congrArg ApFixed.raw (hleft.read _ hi), congrArg ApFixed.raw (hright.read _ hi)⟩

/-- The word of one channel of call `n` of a run. -/
def runWord (input : FirHwArgs → DinT) (calls : List FirHwArgs) (n : ℕ) (args : FirHwArgs) : DoutT :=
  ApFixed.ofRaw (tapSum args.coeffHw args.tapNumM1 (fun i => rawInput input calls (n - i)) / 2 ^ 15)

/-- **The core refines the filter**: call `n` of a run emits nothing, or a left and a right beat
whose words are the filter's over the left and over the right inputs. -/
theorem firHw_words (calls : List FirHwArgs) (n : ℕ) (hn : n < calls.length) :
    (Mealy.outputs firHw FirHwState.initial calls)[n]? = some [] ∨
      ∃ l r, (Mealy.outputs firHw FirHwState.initial calls)[n]? = some [l, r] ∧
        l.data = runWord FirHwArgs.inputL calls n calls[n] ∧
        r.data = runWord FirHwArgs.inputR calls n calls[n] ∧ l.keep = -1 ∧ r.keep = -1 := by
  rw [Mealy.outputs_getElem? _ _ _ _ hn]
  have hnext : (firHw (Mealy.runState firHw FirHwState.initial (calls.take n)) calls[n]).1 =
      Mealy.runState firHw FirHwState.initial (calls.take (n + 1)) := by
    rw [← List.take_concat_get' calls n hn, Mealy.runState_concat]
  rcases firHw_cases (Mealy.runState firHw FirHwState.initial (calls.take n)) calls[n] with
    ⟨_, hout, _⟩ | ⟨_, hout, _⟩
  · right
    refine ⟨_, _, congrArg some hout, ?_, ?_, rfl, rfl⟩
    · rw [hnext]
      exact channelWord_eq fun i hi => (firHw_select calls n i hn hi).1
    · rw [hnext]
      exact channelWord_eq fun i hi => (firHw_select calls n i hn hi).2
  · exact .inl (congrArg some hout)

/-- **Whole-run correctness of the FIR core.** Whenever call `n` emits, each channel's raw word is
the sum of its truncated products over the inputs of that channel, shifted down by 15 bits and
wrapped to 32; and the slot `write_idx - i` always holds the input of exactly `i` calls ago. -/
theorem firHw_run_correct (calls : List FirHwArgs) (n : ℕ) (hn : n < calls.length) :
    ((Mealy.outputs firHw FirHwState.initial calls)[n]? ≠ some [] →
      ∃ l r, (Mealy.outputs firHw FirHwState.initial calls)[n]? = some [l, r] ∧
        l.data.V = BitVec.ofInt 32 ((∑ i ∈ Finset.range (calls[n].tapNumM1.toNat + 1),
          rawInput FirHwArgs.inputL calls (n - i) *
            (calls[n].coeffHw (BitVec.ofNat 9 i)).raw / 2 ^ 8) / 2 ^ 15) ∧
        r.data.V = BitVec.ofInt 32 ((∑ i ∈ Finset.range (calls[n].tapNumM1.toNat + 1),
          rawInput FirHwArgs.inputR calls (n - i) *
            (calls[n].coeffHw (BitVec.ofNat 9 i)).raw / 2 ^ 8) / 2 ^ 15)) ∧
    ∀ i < 512,
      ((Mealy.runState firHw FirHwState.initial (calls.take (n + 1))).bufferLeft
          ((Mealy.runState firHw FirHwState.initial (calls.take n)).writeIdx -
            BitVec.ofNat 9 i)).raw = rawInput FirHwArgs.inputL calls (n - i) ∧
      ((Mealy.runState firHw FirHwState.initial (calls.take (n + 1))).bufferRight
          ((Mealy.runState firHw FirHwState.initial (calls.take n)).writeIdx -
            BitVec.ofNat 9 i)).raw = rawInput FirHwArgs.inputR calls (n - i) := by
  refine ⟨fun hemit => ?_, fun i hi => firHw_select calls n i hn hi⟩
  rcases firHw_words calls n hn with hnone | ⟨l, r, hout, hl, hr, _⟩
  · exact absurd hnone hemit
  · refine ⟨l, r, hout, ?_, ?_⟩
    · rw [hl]; rfl
    · rw [hr]; rfl

/-- Two calls with the taps 0.5 and 0.25. -/
def twoTapCalls : List FirHwArgs :=
  let args : FirHwArgs :=
    { tlastDnum := 256, smplRdNum := 0, tapNumM1 := 1
      coeffHw := fun i => if i = 0 then ⟨0x40000000⟩ else ⟨0x20000000⟩
      inputL := ⟨256⟩, inputR := ⟨-256⟩ }
  [args, { args with inputL := ⟨512⟩, inputR := ⟨0⟩ }]

/-- The second pair carries both inputs of each channel. -/
theorem firHw_run_correct_two_taps :
    1 < twoTapCalls.length ∧
      ∃ l r, (Mealy.outputs firHw FirHwState.initial twoTapCalls)[1]? = some [l, r] ∧
        l.data.V = 81920 ∧ r.data.V = BitVec.ofInt 32 (-16384) := by
  obtain ⟨l, r, hout, hl, hr⟩ := (firHw_run_correct twoTapCalls 1 (by decide)).1 (by decide)
  exact ⟨by decide, l, r, hout, hl.trans (by decide), hr.trans (by decide)⟩

end FpgaLabor
