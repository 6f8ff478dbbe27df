import FpgaLabor.Base.TruncatedSum
import FpgaLabor.Hls.Decimation
import Mathlib.Data.Int.ModEq

/-!
# How accurate the words of `fir_hw` are, and when they wrap

`exactSum` is the convolution without any truncation. The word of a channel is `tapSum / 2 ^ 15` wrapped to
32 bits, and that quotient is `exactSum / 2 ^ 23` or one less (`tapSum_ediv`): all truncations together cost
at most one LSB, and what partial sums do to the accumulator on the way does not matter.

Whether a word is the quotient itself depends on the range of `tapSum` only. For samples from an interval
the range is attained at its ends, by a history that has one sample for each tap (`historyCalls`), so the words
never wrap exactly when the two extreme sums fit (`unwrappedOn_iff`).
-/

namespace FpgaLabor

open TruncatedSum (peak trough argPeak argTrough)

/-- The convolution without truncation, where `x i` is the raw input of `i` calls ago. -/
def exactSum (coeffHw : BitVec 9 → CoeffT) (tapNumM1 : BitVec 9) (x : ℕ → ℤ) : ℤ :=
  ∑ i ∈ Finset.range (tapNumM1.toNat + 1), x i * (coeffHw (BitVec.ofNat 9 i)).raw

/-- The truncated sum of a channel at call `n`. -/
def tapSumAt (input : FirHwArgs → DinT) (calls : List FirHwArgs) (n : ℕ) (args : FirHwArgs) : ℤ :=
  tapSum args.coeffHw args.tapNumM1 fun i => rawInput input calls (n - i)

/-- The exact sum of a channel at call `n`. -/
def exactSumAt (input : FirHwArgs → DinT) (calls : List FirHwArgs) (n : ℕ) (args : FirHwArgs) : ℤ :=
  exactSum args.coeffHw args.tapNumM1 fun i => rawInput input calls (n - i)

theorem tapSum_congr {coeffHw : BitVec 9 → CoeffT} {tapNumM1 : BitVec 9} {x y : ℕ → ℤ}
    (h : ∀ i ≤ tapNumM1.toNat, x i = y i) : tapSum coeffHw tapNumM1 x = tapSum coeffHw tapNumM1 y := by
  apply Finset.sum_congr rfl
  intro i hi
  rw [h i (Nat.le_of_lt_succ (Finset.mem_range.mp hi))]

theorem exactSum_congr {coeffHw : BitVec 9 → CoeffT} {tapNumM1 : BitVec 9} {x y : ℕ → ℤ}
    (h : ∀ i ≤ tapNumM1.toNat, x i = y i) : exactSum coeffHw tapNumM1 x = exactSum coeffHw tapNumM1 y := by
  apply Finset.sum_congr rfl
  intro i hi
  rw [h i (Nat.le_of_lt_succ (Finset.mem_range.mp hi))]

/-! ### Accuracy -/

theorem mul_tapSum_le (coeffHw : BitVec 9 → CoeffT) (tapNumM1 : BitVec 9) (x : ℕ → ℤ) :
    2 ^ 8 * tapSum coeffHw tapNumM1 x ≤ exactSum coeffHw tapNumM1 x :=
  TruncatedSum.mul_sum_ediv_le (by norm_num) _

theorem exactSum_le (coeffHw : BitVec 9 → CoeffT) (tapNumM1 : BitVec 9) (x : ℕ → ℤ) :
    exactSum coeffHw tapNumM1 x ≤
      2 ^ 8 * tapSum coeffHw tapNumM1 x + ((tapNumM1.toNat : ℤ) + 1) * (2 ^ 8 - 1) := by
  have hle := TruncatedSum.sum_le_mul_sum_ediv (m := 2 ^ 8) (s := Finset.range (tapNumM1.toNat + 1))
    (by norm_num) fun i => x i * (coeffHw (BitVec.ofNat 9 i)).raw
  rw [Finset.card_range, Nat.cast_succ] at hle
  exact hle

theorem tapSum_ediv (coeffHw : BitVec 9 → CoeffT) (tapNumM1 : BitVec 9) (x : ℕ → ℤ) :
    tapSum coeffHw tapNumM1 x / 2 ^ 15 = exactSum coeffHw tapNumM1 x / 2 ^ 23 ∨
      tapSum coeffHw tapNumM1 x / 2 ^ 15 = exactSum coeffHw tapNumM1 x / 2 ^ 23 - 1 := by
  have htaps := tapNumM1.isLt
  have hcard : ((Finset.range (tapNumM1.toNat + 1)).card : ℤ) ≤ 2 ^ 15 := by
    rw [Finset.card_range]
    norm_num
    omega
  exact TruncatedSum.ediv_sum_ediv (m := 2 ^ 8) (k := 2 ^ 15) (by norm_num) (by norm_num) hcard _

/-- A word against the exact sum: modulo `2 ^ 32` it is the sum in units of an LSB or one LSB less, and as
a number too when both are in range. -/
structure Accurate (word sum : ℤ) : Prop where
  congr : word ≡ sum / 2 ^ 23 [ZMOD 2 ^ 32] ∨ word ≡ sum / 2 ^ 23 - 1 [ZMOD 2 ^ 32]
  inRange : -2 ^ 31 ≤ sum / 2 ^ 23 - 1 → sum / 2 ^ 23 < 2 ^ 31 →
    word = sum / 2 ^ 23 ∨ word = sum / 2 ^ 23 - 1

theorem raw_ofRaw_modEq (z : ℤ) : (ApFixed.ofRaw z : DoutT).raw ≡ z [ZMOD 2 ^ 32] := by
  rw [ApFixed.raw_ofRaw]
  exact Int.bmod_emod

theorem raw_ofRaw_eq_iff (z : ℤ) : (ApFixed.ofRaw z : DoutT).raw = z ↔ -2 ^ 31 ≤ z ∧ z < 2 ^ 31 := by
  refine ⟨?_, ?_⟩
  · intro heq
    have hlo := (ApFixed.ofRaw z : DoutT).le_two_mul_raw
    have hhi := (ApFixed.ofRaw z : DoutT).two_mul_raw_lt
    rw [heq] at hlo hhi
    constructor <;> omega
  · rintro ⟨hlo, hhi⟩
    exact ApFixed.raw_ofRaw_of_fits (by omega) (by omega)

theorem accurate_word (coeffHw : BitVec 9 → CoeffT) (tapNumM1 : BitVec 9) (x : ℕ → ℤ) :
    Accurate (ApFixed.ofRaw (tapSum coeffHw tapNumM1 x / 2 ^ 15) : DoutT).raw
      (exactSum coeffHw tapNumM1 x) := by
  have hmod := raw_ofRaw_modEq (tapSum coeffHw tapNumM1 x / 2 ^ 15)
  have hraw := raw_ofRaw_eq_iff (tapSum coeffHw tapNumM1 x / 2 ^ 15)
  refine ⟨?_, ?_⟩
  · rcases tapSum_ediv coeffHw tapNumM1 x with hq | hq
    · exact .inl (hq ▸ hmod)
    · exact .inr (hq ▸ hmod)
  · intro hlo hhi
    rcases tapSum_ediv coeffHw tapNumM1 x with hq | hq
    · exact .inl ((hraw.mpr (by omega)).trans hq)
    · exact .inr ((hraw.mpr (by omega)).trans hq)

theorem words_of_pair {calls : List FirHwArgs} {n : ℕ} (hn : n < calls.length) {l r : AxisType}
    (hout : (Mealy.outputs firHw FirHwState.initial calls)[n]? = some [l, r]) :
    l.data = ApFixed.ofRaw (tapSumAt FirHwArgs.inputL calls n calls[n] / 2 ^ 15) ∧
      r.data = ApFixed.ofRaw (tapSumAt FirHwArgs.inputR calls n calls[n] / 2 ^ 15) := by
  rcases firHw_words calls n hn with hnone | ⟨l', r', hout', hl, hr, -⟩
  · rw [hnone] at hout
    cases hout
  · rw [hout'] at hout
    cases hout
    exact ⟨hl, hr⟩

/-- **Accuracy of the fixed-point filter.** Every emitted word is, modulo `2 ^ 32`, the exact convolution
truncated to an LSB or one LSB less; and it is one of the two as a signed number whenever both are in range,
whatever the partial sums were. -/
theorem firHw_accurate (calls : List FirHwArgs) (n : ℕ) (hn : n < calls.length) (l r : AxisType)
    (hout : (Mealy.outputs firHw FirHwState.initial calls)[n]? = some [l, r]) :
    Accurate l.data.raw (exactSumAt FirHwArgs.inputL calls n calls[n]) ∧
      Accurate r.data.raw (exactSumAt FirHwArgs.inputR calls n calls[n]) := by
  obtain ⟨hl, hr⟩ := words_of_pair hn hout
  rw [hl, hr]
  exact ⟨accurate_word _ _ _, accurate_word _ _ _⟩

/-- The second pair of the two-tap filter. -/
theorem firHw_accurate_two_taps :
    ∃ l r, (Mealy.outputs firHw FirHwState.initial twoTapCalls)[1]? = some [l, r] ∧
      (l.data.raw = 81920 ∨ l.data.raw = 81919) := by
  obtain ⟨l, r, hout⟩ := (emitsPair_iff (show 1 < twoTapCalls.length by decide)).mp (by decide)
  have hl := (firHw_accurate twoTapCalls 1 (by decide) l r hout).1.inRange (by decide) (by decide)
  exact ⟨l, r, hout, hl.imp (fun h => h.trans (by decide)) (fun h => h.trans (by decide))⟩

/-! ### Headroom -/

/-- For samples between `lo` and `hi` every word emitted under these coefficients is the truncated sum
itself. -/
def UnwrappedOn (coeffHw : BitVec 9 → CoeffT) (tapNumM1 : BitVec 9) (lo hi : ℤ) : Prop :=
  ∀ (calls : List FirHwArgs) (n : ℕ) (hn : n < calls.length),
    calls[n].coeffHw = coeffHw → calls[n].tapNumM1 = tapNumM1 →
    (∀ args ∈ calls, (lo ≤ args.inputL.raw ∧ args.inputL.raw ≤ hi) ∧
      lo ≤ args.inputR.raw ∧ args.inputR.raw ≤ hi) →
    ∀ l r, (Mealy.outputs firHw FirHwState.initial calls)[n]? = some [l, r] →
      l.data.raw = tapSumAt FirHwArgs.inputL calls n calls[n] / 2 ^ 15 ∧
        r.data.raw = tapSumAt FirHwArgs.inputR calls n calls[n] / 2 ^ 15

/-- A run that gives tap `i` of its last call the sample `x i`, on both channels, and emits on every
call. -/
def historyCalls (coeffHw : BitVec 9 → CoeffT) (tapNumM1 : BitVec 9) (x : ℕ → ℤ) : List FirHwArgs :=
  (List.range (tapNumM1.toNat + 1)).map fun k =>
    { tlastDnum := 256, smplRdNum := 0, tapNumM1 := tapNumM1, coeffHw := coeffHw
      inputL := ApFixed.ofRaw (x (tapNumM1.toNat - k)), inputR := ApFixed.ofRaw (x (tapNumM1.toNat - k)) }

section History

variable {coeffHw : BitVec 9 → CoeffT} {tapNumM1 : BitVec 9} {x : ℕ → ℤ}

@[simp] theorem length_historyCalls (coeffHw : BitVec 9 → CoeffT) (tapNumM1 : BitVec 9) (x : ℕ → ℤ) :
    (historyCalls coeffHw tapNumM1 x).length = tapNumM1.toNat + 1 := by
  rw [historyCalls, List.length_map, List.length_range]

theorem last_lt_length_historyCalls (coeffHw : BitVec 9 → CoeffT) (tapNumM1 : BitVec 9) (x : ℕ → ℤ) :
    tapNumM1.toNat < (historyCalls coeffHw tapNumM1 x).length := by
  rw [length_historyCalls]
  exact Nat.lt_succ_self _

theorem getElem_historyCalls {k : ℕ} (hk : k < (historyCalls coeffHw tapNumM1 x).length) :
    (historyCalls coeffHw tapNumM1 x)[k] =
      { tlastDnum := 256, smplRdNum := 0, tapNumM1 := tapNumM1, coeffHw := coeffHw
        inputL := ApFixed.ofRaw (x (tapNumM1.toNat - k))
        inputR := ApFixed.ofRaw (x (tapNumM1.toNat - k)) } := by
  simp only [historyCalls, List.getElem_map, List.getElem_range]

theorem raw_sample (hx : ∀ i, -2 ^ 23 ≤ x i ∧ x i < 2 ^ 23) (i : ℕ) :
    (ApFixed.ofRaw (x i) : DinT).raw = x i := by
  obtain ⟨hlo, hhi⟩ := hx i
  exact ApFixed.raw_ofRaw_of_fits (by omega) (by omega)

theorem rawInput_historyCalls (hx : ∀ i, -2 ^ 23 ≤ x i ∧ x i < 2 ^ 23) {i : ℕ} (hi : i ≤ tapNumM1.toNat) :
    rawInput FirHwArgs.inputL (historyCalls coeffHw tapNumM1 x) (tapNumM1.toNat - i) = x i ∧
      rawInput FirHwArgs.inputR (historyCalls coeffHw tapNumM1 x) (tapNumM1.toNat - i) = x i := by
  have hidx : ((tapNumM1.toNat : ℤ) - i).toNat = tapNumM1.toNat - i := by omega
  have hlen : tapNumM1.toNat - i < (historyCalls coeffHw tapNumM1 x).length := by
    rw [length_historyCalls]
    omega
  constructor <;>
    rw [rawInput, if_pos (by omega), hidx, List.getElem?_eq_getElem hlen, getElem_historyCalls,
      Nat.sub_sub_self hi]
  · exact raw_sample hx i
  · exact raw_sample hx i

theorem sumsAt_historyCalls (hx : ∀ i, -2 ^ 23 ≤ x i ∧ x i < 2 ^ 23)
    (hn : tapNumM1.toNat < (historyCalls coeffHw tapNumM1 x).length) :
    tapSumAt FirHwArgs.inputL (historyCalls coeffHw tapNumM1 x) tapNumM1.toNat
        (historyCalls coeffHw tapNumM1 x)[tapNumM1.toNat] = tapSum coeffHw tapNumM1 x ∧
      exactSumAt FirHwArgs.inputL (historyCalls coeffHw tapNumM1 x) tapNumM1.toNat
        (historyCalls coeffHw tapNumM1 x)[tapNumM1.toNat] = exactSum coeffHw tapNumM1 x := by
  rw [tapSumAt, exactSumAt, getElem_historyCalls]
  exact ⟨tapSum_congr fun i hi => (rawInput_historyCalls hx hi).1,
    exactSum_congr fun i hi => (rawInput_historyCalls hx hi).1⟩

theorem mem_historyCalls {lo hi : ℤ} (hlo : -2 ^ 23 ≤ lo) (hhi : hi < 2 ^ 23)
    (hx : ∀ i, lo ≤ x i ∧ x i ≤ hi) {args : FirHwArgs} (hargs : args ∈ historyCalls coeffHw tapNumM1 x) :
    (lo ≤ args.inputL.raw ∧ args.inputL.raw ≤ hi) ∧ lo ≤ args.inputR.raw ∧ args.inputR.raw ≤ hi := by
  obtain ⟨k, -, rfl⟩ := List.mem_map.mp hargs
  have hraw := raw_sample (fun i => ⟨hlo.trans (hx i).1, (hx i).2.trans_lt hhi⟩) (tapNumM1.toNat - k)
  simp only [hraw]
  exact ⟨hx _, hx _⟩

theorem historyCalls_emits (coeffHw : BitVec 9 → CoeffT) (tapNumM1 : BitVec 9) (x : ℕ → ℤ) :
    ∃ l r, (Mealy.outputs firHw FirHwState.initial (historyCalls coeffHw tapNumM1 x))[tapNumM1.toNat]? =
      some [l, r] := by
  have hn := last_lt_length_historyCalls coeffHw tapNumM1 x
  rw [← emitsPair_iff hn, firHw_triggered _ _ hn, smplRdNumAt_eq hn, getElem_historyCalls]
  exact Nat.zero_le _

end History

theorem rawInput_mem {input : FirHwArgs → DinT} {calls : List FirHwArgs} {lo hi : ℤ} (hlo : lo ≤ 0)
    (hhi : 0 ≤ hi) (h : ∀ args ∈ calls, lo ≤ (input args).raw ∧ (input args).raw ≤ hi) (k : ℤ) :
    lo ≤ rawInput input calls k ∧ rawInput input calls k ≤ hi := by
  unfold rawInput
  split_ifs with hk
  · cases hget : calls[k.toNat]? with
    | none => exact ⟨hlo, hhi⟩
    | some args => exact h args (List.mem_of_getElem? hget)
  · exact ⟨hlo, hhi⟩

theorem raw_ediv_eq_iff (z : ℤ) :
    (ApFixed.ofRaw (z / 2 ^ 15) : DoutT).raw = z / 2 ^ 15 ↔ -2 ^ 46 ≤ z ∧ z < 2 ^ 46 := by
  rw [raw_ofRaw_eq_iff]
  constructor <;> intro h <;> constructor <;> omega

/-- **Headroom over an interval of samples.** The words never wrap exactly when the two extreme sums of
truncated products fit. -/
theorem unwrappedOn_iff (coeffHw : BitVec 9 → CoeffT) (tapNumM1 : BitVec 9) {lo hi : ℤ}
    (hlo : -2 ^ 23 ≤ lo) (hlo' : lo ≤ 0) (hhi' : 0 ≤ hi) (hhi : hi < 2 ^ 23) :
    UnwrappedOn coeffHw tapNumM1 lo hi ↔
      ∑ i ∈ Finset.range (tapNumM1.toNat + 1), peak (2 ^ 8) lo hi (coeffHw (BitVec.ofNat 9 i)).raw < 2 ^ 46 ∧
      -2 ^ 46 ≤ ∑ i ∈ Finset.range (tapNumM1.toNat + 1),
        trough (2 ^ 8) lo hi (coeffHw (BitVec.ofNat 9 i)).raw := by
  have hle : lo ≤ hi := hlo'.trans hhi'
  refine ⟨?_, ?_⟩
  · intro hunwrapped
    -- a history of samples in the interval puts its sum in range
    have hrange : ∀ x : ℕ → ℤ, (∀ i, lo ≤ x i ∧ x i ≤ hi) →
        -2 ^ 46 ≤ tapSum coeffHw tapNumM1 x ∧ tapSum coeffHw tapNumM1 x < 2 ^ 46 := by
      intro x hx
      have hx' : ∀ i, -2 ^ 23 ≤ x i ∧ x i < 2 ^ 23 := fun i => ⟨hlo.trans (hx i).1, (hx i).2.trans_lt hhi⟩
      have hn := last_lt_length_historyCalls coeffHw tapNumM1 x
      obtain ⟨l, r, hout⟩ := historyCalls_emits coeffHw tapNumM1 x
      have hword := (hunwrapped _ _ hn (by rw [getElem_historyCalls]) (by rw [getElem_historyCalls])
        (fun args => mem_historyCalls hlo hhi hx) l r hout).1
      rw [(words_of_pair hn hout).1, (sumsAt_historyCalls hx' hn).1] at hword
      exact (raw_ediv_eq_iff _).mp hword
    refine ⟨?_, ?_⟩
    · have hpeak := hrange (fun i => argPeak lo hi (coeffHw (BitVec.ofNat 9 i)).raw)
        fun i => TruncatedSum.argPeak_mem hle _
      rw [tapSum, TruncatedSum.sum_argPeak (by norm_num) hle] at hpeak
      exact hpeak.2
    · have htrough := hrange (fun i => argTrough lo hi (coeffHw (BitVec.ofNat 9 i)).raw)
        fun i => TruncatedSum.argTrough_mem hle _
      rw [tapSum, TruncatedSum.sum_argTrough (by norm_num) hle] at htrough
      exact htrough.1
  · rintro ⟨hpeak, htrough⟩ calls n hn hcoeff htaps hsamples l r hout
    have hfits : ∀ input : FirHwArgs → DinT,
        (∀ args ∈ calls, lo ≤ (input args).raw ∧ (input args).raw ≤ hi) →
        -2 ^ 46 ≤ tapSumAt input calls n calls[n] ∧ tapSumAt input calls n calls[n] < 2 ^ 46 := by
      intro input hinput
      obtain ⟨h₁, h₂⟩ := TruncatedSum.sum_mem_Icc (m := 2 ^ 8) (s := Finset.range (tapNumM1.toNat + 1))
        (by norm_num) (fun i => (coeffHw (BitVec.ofNat 9 i)).raw) (fun i => rawInput input calls (n - i))
        fun i _ => rawInput_mem hlo' hhi' hinput _
      rw [tapSumAt, hcoeff, htaps, tapSum]
      exact ⟨htrough.trans h₁, h₂.trans_lt hpeak⟩
    obtain ⟨hl, hr⟩ := words_of_pair hn hout
    rw [hl, hr, raw_ediv_eq_iff, raw_ediv_eq_iff]
    exact ⟨hfits _ fun args hargs => (hsamples args hargs).1, hfits _ fun args hargs => (hsamples args hargs).2⟩

/-! ### Headroom over the whole range of `din_t` -/

/-- The largest truncated product of a raw coefficient with a sample. -/
def tapHi (c : ℤ) : ℤ := if 0 ≤ c then (2 ^ 23 - 1) * c / 2 ^ 8 else -2 ^ 15 * c

/-- The smallest one. -/
def tapLo (c : ℤ) : ℤ := if 0 ≤ c then -2 ^ 15 * c else (2 ^ 23 - 1) * c / 2 ^ 8

theorem peak_eq_tapHi (c : ℤ) : peak (2 ^ 8) (-2 ^ 23) (2 ^ 23 - 1) c = tapHi c := by
  rw [← TruncatedSum.argPeak_mul_ediv (by norm_num) (by norm_num)]
  unfold argPeak tapHi
  split_ifs
  · rfl
  · omega

theorem trough_eq_tapLo (c : ℤ) : trough (2 ^ 8) (-2 ^ 23) (2 ^ 23 - 1) c = tapLo c := by
  rw [← TruncatedSum.argTrough_mul_ediv (by norm_num) (by norm_num)]
  unfold argTrough tapLo
  split_ifs
  · omega
  · rfl

theorem tapHi_le (c : ℤ) : tapHi c ≤ 2 ^ 15 * |c| := by
  unfold tapHi
  split_ifs with hc
  · rw [abs_of_nonneg hc]
    omega
  · rw [abs_of_neg (not_le.mp hc)]
    omega

theorem le_tapLo (c : ℤ) : -(2 ^ 15 * |c|) ≤ tapLo c := by
  unfold tapLo
  split_ifs with hc
  · rw [abs_of_nonneg hc]
    omega
  · rw [abs_of_neg (not_le.mp hc)]
    omega

theorem headroom_of_sum_abs_le {T : ℕ} (c : ℕ → ℤ) (h : ∑ i ∈ Finset.range T, |c i| ≤ 2 ^ 31 - 1) :
    ∑ i ∈ Finset.range T, tapHi (c i) < 2 ^ 46 ∧ -2 ^ 46 ≤ ∑ i ∈ Finset.range T, tapLo (c i) := by
  have hhi : ∑ i ∈ Finset.range T, tapHi (c i) ≤ 2 ^ 15 * ∑ i ∈ Finset.range T, |c i| := by
    rw [Finset.mul_sum]
    exact Finset.sum_le_sum fun i _ => tapHi_le (c i)
  have hlo : -(2 ^ 15 * ∑ i ∈ Finset.range T, |c i|) ≤ ∑ i ∈ Finset.range T, tapLo (c i) := by
    rw [Finset.mul_sum, ← Finset.sum_neg_distrib]
    exact Finset.sum_le_sum fun i _ => le_tapLo (c i)
  constructor <;> omega

/-- **The headroom criterion.** For every coefficient array and every number of taps: the emitted words are
the truncated sums themselves, for every input history, exactly when the largest truncated products of the
taps add up to less than `2 ^ 46` and the smallest ones to at least `-2 ^ 46`. An absolute sum of the
coefficients of at most `2 ^ 31 - 1` suffices. -/
theorem firHw_headroom (coeffHw : BitVec 9 → CoeffT) (tapNumM1 : BitVec 9) :
    ((∀ (calls : List FirHwArgs) (n : ℕ) (hn : n < calls.length),
        calls[n].coeffHw = coeffHw → calls[n].tapNumM1 = tapNumM1 →
        ∀ l r, (Mealy.outputs firHw FirHwState.initial calls)[n]? = some [l, r] →
          l.data.raw = tapSumAt FirHwArgs.inputL calls n calls[n] / 2 ^ 15 ∧
            r.data.raw = tapSumAt FirHwArgs.inputR calls n calls[n] / 2 ^ 15) ↔
      ∑ i ∈ Finset.range (tapNumM1.toNat + 1), tapHi (coeffHw (BitVec.ofNat 9 i)).raw < 2 ^ 46 ∧
        -2 ^ 46 ≤ ∑ i ∈ Finset.range (tapNumM1.toNat + 1), tapLo (coeffHw (BitVec.ofNat 9 i)).raw) ∧
    (∑ i ∈ Finset.range (tapNumM1.toNat + 1), |(coeffHw (BitVec.ofNat 9 i)).raw| ≤ 2 ^ 31 - 1 →
      ∑ i ∈ Finset.range (tapNumM1.toNat + 1), tapHi (coeffHw (BitVec.ofNat 9 i)).raw < 2 ^ 46 ∧
        -2 ^ 46 ≤ ∑ i ∈ Finset.range (tapNumM1.toNat + 1), tapLo (coeffHw (BitVec.ofNat 9 i)).raw) := by
  refine ⟨?_, headroom_of_sum_abs_le _⟩
  have hiff := unwrappedOn_iff coeffHw tapNumM1 (le_refl (-2 ^ 23 : ℤ)) (by norm_num)
    (show (0 : ℤ) ≤ 2 ^ 23 - 1 by norm_num) (by norm_num)
  simp only [peak_eq_tapHi, trough_eq_tapLo] at hiff
  rw [← hiff]
  refine ⟨?_, ?_⟩
  · intro h calls n hn hcoeff htaps _
    exact h calls n hn hcoeff htaps
  · intro h calls n hn hcoeff htaps
    refine h calls n hn hcoeff htaps fun args _ => ?_
    obtain ⟨hl, hl'⟩ := raw_range args.inputL
    obtain ⟨hr, hr'⟩ := raw_range args.inputR
    exact ⟨⟨hl, by omega⟩, hr, by omega⟩

end FpgaLabor
