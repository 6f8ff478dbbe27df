import FpgaLabor.Hls.FilterCoeffs
import FpgaLabor.Hls.Headroom
import Mathlib.Algebra.BigOperators.Fin

/-!
# When the shipped filters wrap

The absolute sums of the shipped tables are about 2.4, so loud samples of the right signs make a word wrap.
A word is off the exact convolution clamped to `dout_t` by no more than an LSB for its own truncation and
`2 ^ -15` LSB for that of each tap exactly when the sum of its truncated tap products is in range
(`within_iff`; the sums stay below three times the range, so that a wrapped word is never near the clamped
value by chance). For each table the greatest magnitude of samples for which this always holds is read off
its extreme sums (`ShippedFilter.wrapLaw`).

The convolution is in units of `2 ^ -54`, an LSB of `dout_t` being `2 ^ 23` of them.
-/

namespace FpgaLabor

open TruncatedSum (peak trough argPeak)

/-- The convolution clamped to the range of `dout_t`. -/
def clampDout (z : ℤ) : ℤ := max (-2 ^ 31 * 2 ^ 23) (min z ((2 ^ 31 - 1) * 2 ^ 23))

/-- A word is within `tol` of the exact convolution clamped to the range. -/
def Within (tol word sum : ℤ) : Prop := |2 ^ 23 * word - clampDout sum| ≤ tol

/-- A sum of truncated tap products is in the range of `dout_t`. -/
def Fits (sum : ℤ) : Prop := -2 ^ 46 ≤ sum ∧ sum < 2 ^ 46

/-- A coefficient table, the number of taps it is run with, and a magnitude of samples. -/
structure ShippedFilter where
  data : List Decimal
  tapNumM1 : BitVec 9
  maxSample : ℤ

/-- The number of taps. -/
def ShippedFilter.taps (f : ShippedFilter) : ℤ := f.tapNumM1.toNat + 1

/-- One LSB, and `2 ^ -15` LSB for each tap. -/
def ShippedFilter.tolerance (f : ShippedFilter) : ℤ := 2 ^ 23 + 2 ^ 8 * f.taps

def filter128 : ShippedFilter := ⟨filter128Data, 127, 3414609⟩

def filter256 : ShippedFilter := ⟨filter256Data, 255, 3560487⟩

def filter512 : ShippedFilter := ⟨filter512Data, 511, 3530923⟩

/-- A run of `fir_hw` whose call `n` emits a pair under the filter's coefficients. -/
structure FilterRun (f : ShippedFilter) where
  calls : List FirHwArgs
  n : ℕ
  lt : n < calls.length
  coeffHw : calls[n].coeffHw = coeffTable f.data
  tapNumM1 : calls[n].tapNumM1 = f.tapNumM1
  left : AxisType
  right : AxisType
  emitted : (Mealy.outputs firHw FirHwState.initial calls)[n]? = some [left, right]

section Run

variable {f : ShippedFilter} (run : FilterRun f)

/-- The sum of the truncated tap products of a channel. -/
def FilterRun.tapSum (input : FirHwArgs → DinT) : ℤ :=
  have := run.lt
  tapSumAt input run.calls run.n run.calls[run.n]

/-- The exact convolution of a channel. -/
def FilterRun.exactSum (input : FirHwArgs → DinT) : ℤ :=
  have := run.lt
  exactSumAt input run.calls run.n run.calls[run.n]

/-- Both words of the call are within `tol` of the clamped convolution. -/
def FilterRun.Within (tol : ℤ) : Prop :=
  FpgaLabor.Within tol run.left.data.raw (run.exactSum FirHwArgs.inputL) ∧
    FpgaLabor.Within tol run.right.data.raw (run.exactSum FirHwArgs.inputR)

/-- No sample of the run exceeds `m` in magnitude. -/
def FilterRun.SamplesWithin (m : ℤ) : Prop :=
  ∀ args ∈ run.calls, (-m ≤ args.inputL.raw ∧ args.inputL.raw ≤ m) ∧
    -m ≤ args.inputR.raw ∧ args.inputR.raw ≤ m

end Run

/-- One word of a filter: the truncated sum `A` in LSBs, wrapped; near the exact sum `Y` exactly when `A` is in
range, and then never above it. -/
structure WordLaw (tol word A Y : ℤ) : Prop where
  wraps : word ≡ A / 2 ^ 15 [ZMOD 2 ^ 32]
  within_iff : Within tol word Y ↔ Fits A
  error : Fits A → 0 ≤ Y - 2 ^ 23 * word ∧ Y - 2 ^ 23 * word ≤ tol

/-- When the words of a filter wrap: exactly when the truncated sum is out of range, never for samples up to
`maxSample`, and sometimes for greater ones. -/
structure WrapLaw (f : ShippedFilter) : Prop where
  left : ∀ run : FilterRun f, WordLaw f.tolerance run.left.data.raw (run.tapSum FirHwArgs.inputL)
    (run.exactSum FirHwArgs.inputL)
  right : ∀ run : FilterRun f, WordLaw f.tolerance run.right.data.raw (run.tapSum FirHwArgs.inputR)
    (run.exactSum FirHwArgs.inputR)
  within : ∀ run : FilterRun f, run.SamplesWithin f.maxSample → run.Within f.tolerance
  tight : ∃ run : FilterRun f, run.SamplesWithin (f.maxSample + 1) ∧ ¬ run.Within f.tolerance

/-! ### One word -/

section Word

variable {A Y T : ℤ} (hbelow : 2 ^ 8 * A ≤ Y) (habove : Y ≤ 2 ^ 8 * A + T * (2 ^ 8 - 1)) (hT : 1 ≤ T)
  (hT' : T ≤ 512)
include hbelow habove hT hT'

/-- **Near the exact sum.** The sum stays below three times the range. -/
theorem within_iff (hlo : -3 * 2 ^ 46 + 2 ^ 17 ≤ A) (hhi : A ≤ 3 * 2 ^ 46 - 2 ^ 17) :
    Within (2 ^ 23 + 2 ^ 8 * T) (ApFixed.ofRaw (A / 2 ^ 15) : DoutT).raw Y ↔ Fits A := by
  have hword := (raw_ofRaw_modEq (A / 2 ^ 15)).symm.dvd
  have hlt := (ApFixed.ofRaw (A / 2 ^ 15) : DoutT).two_mul_raw_lt
  have hle := (ApFixed.ofRaw (A / 2 ^ 15) : DoutT).le_two_mul_raw
  generalize (ApFixed.ofRaw (A / 2 ^ 15) : DoutT).raw = word at hword hlt hle ⊢
  unfold Within Fits clampDout
  rw [abs_le]
  omega

theorem error_of_fits (h : Fits A) :
    0 ≤ Y - 2 ^ 23 * (ApFixed.ofRaw (A / 2 ^ 15) : DoutT).raw ∧
      Y - 2 ^ 23 * (ApFixed.ofRaw (A / 2 ^ 15) : DoutT).raw ≤ 2 ^ 23 + 2 ^ 8 * T := by
  rw [(raw_ediv_eq_iff A).mpr h]
  omega

end Word

/-! ### Sums over a table -/

/-- The sum of `F` over the raw coefficients of a filter. -/
def ShippedFilter.total (f : ShippedFilter) (F : ℤ → ℤ) : ℤ := (f.data.map fun d => F d.toCoeff.raw).sum

theorem sum_coeffTable {f : ShippedFilter} (hlen : f.data.length = f.tapNumM1.toNat + 1) (F : ℤ → ℤ) :
    ∑ i ∈ Finset.range (f.tapNumM1.toNat + 1), F (coeffTable f.data (BitVec.ofNat 9 i)).raw = f.total F := by
  have htaps := f.tapNumM1.isLt
  rw [ShippedFilter.total, ← hlen, Finset.sum_range, ← Fin.sum_univ_getElem]
  refine Fintype.sum_equiv (finCongr (List.length_map _).symm) _ _ fun i => ?_
  have hi := i.isLt
  rw [coeffTable, BitVec.toNat_ofNat, Nat.mod_eq_of_lt (by omega), List.getElem?_eq_getElem hi]
  simp

/-- What is computed of a table: its length, that its sums stay below three times the range, and that
`maxSample` is the greatest magnitude of samples for which they stay in range. -/
structure ShippedFilter.Certified (f : ShippedFilter) : Prop where
  length : f.data.length = f.tapNumM1.toNat + 1
  peakFull : f.total (peak (2 ^ 8) (-2 ^ 23) (2 ^ 23 - 1)) ≤ 3 * 2 ^ 46 - 2 ^ 17
  troughFull : -3 * 2 ^ 46 + 2 ^ 17 ≤ f.total (trough (2 ^ 8) (-2 ^ 23) (2 ^ 23 - 1))
  nonneg : 0 ≤ f.maxSample
  lt : f.maxSample + 1 < 2 ^ 23
  peakSafe : f.total (peak (2 ^ 8) (-f.maxSample) f.maxSample) < 2 ^ 46
  troughSafe : -2 ^ 46 ≤ f.total (trough (2 ^ 8) (-f.maxSample) f.maxSample)
  peakBeyond : 2 ^ 46 ≤ f.total (peak (2 ^ 8) (-(f.maxSample + 1)) (f.maxSample + 1))

theorem filter128_certified : filter128.Certified := by constructor <;> decide +kernel

theorem filter256_certified : filter256.Certified := by constructor <;> decide +kernel

theorem filter512_certified : filter512.Certified := by constructor <;> decide +kernel

section Law

variable {f : ShippedFilter}

theorem tapSum_mem_Icc (hlen : f.data.length = f.tapNumM1.toNat + 1) (run : FilterRun f)
    (input : FirHwArgs → DinT) (lo hi : ℤ) (hlo : lo ≤ 0) (hhi : 0 ≤ hi)
    (h : ∀ args ∈ run.calls, lo ≤ (input args).raw ∧ (input args).raw ≤ hi) :
    f.total (trough (2 ^ 8) lo hi) ≤ run.tapSum input ∧ run.tapSum input ≤ f.total (peak (2 ^ 8) lo hi) := by
  rw [FilterRun.tapSum, tapSumAt, run.coeffHw, run.tapNumM1, ← sum_coeffTable hlen, ← sum_coeffTable hlen]
  exact TruncatedSum.sum_mem_Icc (by norm_num) _ _ fun i _ => rawInput_mem hlo hhi h _

theorem FilterRun.wordLaw (hcert : f.Certified) (run : FilterRun f) (input : FirHwArgs → DinT) :
    WordLaw f.tolerance (ApFixed.ofRaw (run.tapSum input / 2 ^ 15) : DoutT).raw (run.tapSum input)
      (run.exactSum input) := by
  have htaps := f.tapNumM1.isLt
  obtain ⟨h₁, h₂⟩ := tapSum_mem_Icc hcert.length run input (-2 ^ 23) (2 ^ 23 - 1) (by norm_num)
    (by norm_num) fun args _ => ⟨(raw_range _).1, Int.le_sub_one_of_lt (raw_range _).2⟩
  have hbelow : 2 ^ 8 * run.tapSum input ≤ run.exactSum input := mul_tapSum_le _ _ _
  have habove : run.exactSum input ≤ 2 ^ 8 * run.tapSum input + f.taps * (2 ^ 8 - 1) := by
    have hlt := run.lt
    have hle := exactSum_le run.calls[run.n].coeffHw run.calls[run.n].tapNumM1
      fun i => rawInput input run.calls (run.n - i)
    rw [ShippedFilter.taps, ← run.tapNumM1]
    exact hle
  have hpos : 1 ≤ f.taps := by
    unfold ShippedFilter.taps
    omega
  have hfew : f.taps ≤ 512 := by
    unfold ShippedFilter.taps
    omega
  exact ⟨raw_ofRaw_modEq _,
    FpgaLabor.within_iff hbelow habove hpos hfew (hcert.troughFull.trans h₁) (h₂.trans hcert.peakFull),
    error_of_fits hbelow habove hpos hfew⟩

theorem FilterRun.wordLaws (hcert : f.Certified) (run : FilterRun f) :
    WordLaw f.tolerance run.left.data.raw (run.tapSum FirHwArgs.inputL) (run.exactSum FirHwArgs.inputL) ∧
      WordLaw f.tolerance run.right.data.raw (run.tapSum FirHwArgs.inputR) (run.exactSum FirHwArgs.inputR) := by
  obtain ⟨hl, hr⟩ := words_of_pair run.lt run.emitted
  rw [hl, hr]
  exact ⟨run.wordLaw hcert FirHwArgs.inputL, run.wordLaw hcert FirHwArgs.inputR⟩

theorem exists_filterRun (f : ShippedFilter) {lo hi : ℤ} (hlo : -2 ^ 23 ≤ lo) (hhi : hi < 2 ^ 23) (x : ℕ → ℤ)
    (hx : ∀ i, lo ≤ x i ∧ x i ≤ hi) :
    ∃ run : FilterRun f, run.calls = historyCalls (coeffTable f.data) f.tapNumM1 x ∧
      run.tapSum FirHwArgs.inputL = FpgaLabor.tapSum (coeffTable f.data) f.tapNumM1 x ∧
      run.exactSum FirHwArgs.inputL = FpgaLabor.exactSum (coeffTable f.data) f.tapNumM1 x := by
  have hn := last_lt_length_historyCalls (coeffTable f.data) f.tapNumM1 x
  obtain ⟨l, r, hout⟩ := historyCalls_emits (coeffTable f.data) f.tapNumM1 x
  refine ⟨⟨_, f.tapNumM1.toNat, hn, ?_, ?_, l, r, hout⟩, rfl, ?_⟩
  · rw [getElem_historyCalls]
  · rw [getElem_historyCalls]
  · exact sumsAt_historyCalls (fun i => ⟨hlo.trans (hx i).1, (hx i).2.trans_lt hhi⟩) hn

/-- Samples of magnitude `m`, each of the sign of its coefficient. -/
def loudHistory (f : ShippedFilter) (m : ℤ) (i : ℕ) : ℤ :=
  argPeak (-m) m (coeffTable f.data (BitVec.ofNat 9 i)).raw

theorem exists_loudRun (hlen : f.data.length = f.tapNumM1.toNat + 1) {m : ℤ} (hm : 0 ≤ m) (hlt : m < 2 ^ 23) :
    ∃ run : FilterRun f, run.calls = historyCalls (coeffTable f.data) f.tapNumM1 (loudHistory f m) ∧
      run.SamplesWithin m ∧ run.tapSum FirHwArgs.inputL = f.total (peak (2 ^ 8) (-m) m) := by
  have hmem : ∀ i, -m ≤ loudHistory f m i ∧ loudHistory f m i ≤ m := fun i =>
    TruncatedSum.argPeak_mem (by omega) _
  obtain ⟨run, hcalls, hsum, -⟩ := exists_filterRun f (by omega) hlt (loudHistory f m) hmem
  refine ⟨run, hcalls, fun args hargs => ?_, hsum.trans ?_⟩
  · rw [hcalls] at hargs
    exact mem_historyCalls (by omega) hlt hmem hargs
  · rw [← sum_coeffTable hlen]
    exact TruncatedSum.sum_argPeak (by norm_num) (by omega) _

theorem ShippedFilter.wrapLaw (hcert : f.Certified) : WrapLaw f where
  left run := (run.wordLaws hcert).1
  right run := (run.wordLaws hcert).2
  within run hsamples := by
    obtain ⟨hl, hr⟩ := run.wordLaws hcert
    have hneg : -f.maxSample ≤ 0 := by
      have := hcert.nonneg
      omega
    obtain ⟨h₁, h₂⟩ := tapSum_mem_Icc hcert.length run FirHwArgs.inputL _ _ hneg hcert.nonneg
      fun args hargs => (hsamples args hargs).1
    obtain ⟨h₃, h₄⟩ := tapSum_mem_Icc hcert.length run FirHwArgs.inputR _ _ hneg hcert.nonneg
      fun args hargs => (hsamples args hargs).2
    exact ⟨hl.within_iff.mpr ⟨hcert.troughSafe.trans h₁, h₂.trans_lt hcert.peakSafe⟩,
      hr.within_iff.mpr ⟨hcert.troughSafe.trans h₃, h₄.trans_lt hcert.peakSafe⟩⟩
  tight := by
    obtain ⟨run, -, hsamples, hsum⟩ := exists_loudRun hcert.length (by have := hcert.nonneg; omega) hcert.lt
    refine ⟨run, hsamples, fun hwithin => ?_⟩
    have hfits := (run.wordLaws hcert).1.within_iff.mp hwithin.1
    rw [hsum] at hfits
    exact absurd hfits.2 (not_lt.mpr hcert.peakBeyond)

end Law

/-- **The shipped filters.** For each shipped table: a word is the truncated sum wrapped to 32 bits, and it is
within one LSB and `2 ^ -15` LSB for each tap of the clamped exact convolution exactly when the sum of its
truncated tap products is in range, which holds for every history of samples of magnitude at most 3414609,
3560487 and 3530923 (of `2 ^ 23`) for 128, 256 and 512 taps, and for no greater bound. -/
theorem shippedFilters_wrap : WrapLaw filter128 ∧ WrapLaw filter256 ∧ WrapLaw filter512 :=
  ⟨ShippedFilter.wrapLaw filter128_certified, ShippedFilter.wrapLaw filter256_certified,
    ShippedFilter.wrapLaw filter512_certified⟩

/-! ### Two histories that are off by more than an LSB -/

/-- At half of full scale the loudest history makes a word negative although its exact sum is beyond the
positive end of the range. -/
theorem halfScale_flips {f : ShippedFilter} (hlen : f.data.length = f.tapNumM1.toNat + 1)
    (hlo : 2 ^ 46 ≤ f.total (peak (2 ^ 8) (-2 ^ 22) (2 ^ 22)))
    (hhi : f.total (peak (2 ^ 8) (-2 ^ 22) (2 ^ 22)) < 2 ^ 47) :
    ∃ run : FilterRun f, run.SamplesWithin (2 ^ 22) ∧ run.left.data.raw < 0 ∧
      2 ^ 31 * 2 ^ 23 ≤ run.exactSum FirHwArgs.inputL := by
  obtain ⟨run, -, hsamples, hsum⟩ := exists_loudRun hlen (show (0 : ℤ) ≤ 2 ^ 22 by norm_num) (by norm_num)
  have hle : 2 ^ 8 * run.tapSum FirHwArgs.inputL ≤ run.exactSum FirHwArgs.inputL :=
    mul_tapSum_le _ _ _
  have hword := (raw_ofRaw_modEq (run.tapSum FirHwArgs.inputL / 2 ^ 15)).symm.dvd
  have hlt := (ApFixed.ofRaw (run.tapSum FirHwArgs.inputL / 2 ^ 15) : DoutT).two_mul_raw_lt
  refine ⟨run, hsamples, ?_, by omega⟩
  rw [(words_of_pair run.lt run.emitted).1]
  change (ApFixed.ofRaw (run.tapSum FirHwArgs.inputL / 2 ^ 15) : DoutT).raw < 0
  omega

/-- Two samples, the newer one first, after silence. -/
def twoSamples (a b : ℤ) (i : ℕ) : ℤ := if i = 0 then a else if i = 1 then b else 0

theorem sum_twoSamples (a b : ℤ) (F : ℤ → ℕ → ℤ) (hF : ∀ i, F 0 i = 0) (n : ℕ) :
    ∑ i ∈ Finset.range (n + 2), F (twoSamples a b i) i = F a 0 + F b 1 := by
  have hzero : ∀ k ∈ Finset.range n, F (twoSamples a b (k + 1 + 1)) (k + 1 + 1) = 0 := by
    intro k _
    simp [twoSamples, hF]
  rw [Finset.sum_range_succ', Finset.sum_range_succ', Finset.sum_eq_zero hzero, zero_add, add_comm]
  rfl

/-- The raw coefficients of the two newest samples. -/
def ShippedFilter.newest (f : ShippedFilter) : ℤ × ℤ :=
  ((coeffTable f.data 0).raw, (coeffTable f.data 1).raw)

theorem exists_twoSamplesRun {f : ShippedFilter} {a b : ℤ} (htaps : 1 ≤ f.tapNumM1.toNat)
    (ha : |a| < 2 ^ 23) (hb : |b| < 2 ^ 23) :
    ∃ run : FilterRun f,
      run.tapSum FirHwArgs.inputL = a * f.newest.1 / 2 ^ 8 + b * f.newest.2 / 2 ^ 8 ∧
      run.exactSum FirHwArgs.inputL = a * f.newest.1 + b * f.newest.2 := by
  have hmem : ∀ i, -2 ^ 23 ≤ twoSamples a b i ∧ twoSamples a b i ≤ 2 ^ 23 - 1 := by
    intro i
    rw [abs_lt] at ha hb
    unfold twoSamples
    split_ifs <;> omega
  obtain ⟨run, -, htap, hexact⟩ := exists_filterRun f (le_refl _) (by norm_num) (twoSamples a b) hmem
  have hrange : f.tapNumM1.toNat + 1 = f.tapNumM1.toNat - 1 + 2 := by omega
  refine ⟨run, ?_, ?_⟩
  · rw [htap, FpgaLabor.tapSum, hrange]
    exact sum_twoSamples a b (fun x i => x * (coeffTable f.data (BitVec.ofNat 9 i)).raw / 2 ^ 8) (by simp) _
  · rw [hexact, FpgaLabor.exactSum, hrange]
    exact sum_twoSamples a b (fun x i => x * (coeffTable f.data (BitVec.ofNat 9 i)).raw) (by simp) _

/-- What the words of a filter are not: within one LSB of the clamped convolution. At half of full scale some
flip, and of the others some are off by more than an LSB. -/
structure NotWithinLsb (f : ShippedFilter) : Prop where
  flips : ∃ run : FilterRun f, run.SamplesWithin (2 ^ 22) ∧ run.left.data.raw < 0 ∧
    2 ^ 31 * 2 ^ 23 ≤ run.exactSum FirHwArgs.inputL ∧ ¬ run.Within (2 ^ 23)
  rounds : ∃ run : FilterRun f, Fits (run.tapSum FirHwArgs.inputL) ∧ ¬ run.Within (2 ^ 23)

/-- A filter of at least two taps, of absolute sum between two and four, with two samples that its first two
coefficients round off by more than an LSB. -/
theorem notWithinLsb_of_samples {f : ShippedFilter} (hlen : f.data.length = f.tapNumM1.toNat + 1)
    (htaps : 1 ≤ f.tapNumM1.toNat) (hlo : 2 ^ 46 ≤ f.total (peak (2 ^ 8) (-2 ^ 22) (2 ^ 22)))
    (hhi : f.total (peak (2 ^ 8) (-2 ^ 22) (2 ^ 22)) < 2 ^ 47) {a b : ℤ} (ha : |a| < 2 ^ 23) (hb : |b| < 2 ^ 23)
    {w : ℤ} (hword : (a * f.newest.1 / 2 ^ 8 + b * f.newest.2 / 2 ^ 8) / 2 ^ 15 = w)
    (hfits : -2 ^ 31 < w ∧ w < 2 ^ 31 - 2)
    (hoff : 2 ^ 23 < a * f.newest.1 + b * f.newest.2 - 2 ^ 23 * w ∧
      a * f.newest.1 + b * f.newest.2 - 2 ^ 23 * w < 2 ^ 24) : NotWithinLsb f where
  flips := by
    obtain ⟨run, hsamples, hneg, hsum⟩ := halfScale_flips hlen hlo hhi
    refine ⟨run, hsamples, hneg, hsum, fun hwithin => ?_⟩
    have hleft := hwithin.1
    unfold FpgaLabor.Within clampDout at hleft
    rw [abs_le] at hleft
    omega
  rounds := by
    obtain ⟨run, htap, hexact⟩ := exists_twoSamplesRun htaps ha hb
    have hrange : Fits (run.tapSum FirHwArgs.inputL) := by
      rw [htap, Fits]
      omega
    refine ⟨run, hrange, fun hwithin => ?_⟩
    have hleft := hwithin.1
    rw [(words_of_pair run.lt run.emitted).1] at hleft
    change FpgaLabor.Within _ (ApFixed.ofRaw (run.tapSum FirHwArgs.inputL / 2 ^ 15) : DoutT).raw _ at hleft
    rw [(raw_ediv_eq_iff _).mpr hrange, htap, hexact, hword] at hleft
    unfold FpgaLabor.Within clampDout at hleft
    rw [abs_le] at hleft
    omega

/-- Half-scale samples of the signs of the coefficients, and two samples after silence, under each of the three
tables. -/
theorem shippedFilters_notWithinLsb :
    NotWithinLsb filter128 ∧ NotWithinLsb filter256 ∧ NotWithinLsb filter512 := by
  refine ⟨?_, ?_, ?_⟩
  · apply notWithinLsb_of_samples (a := -1480433) (b := -2044403) (w := 2198) <;> decide +kernel
  · apply notWithinLsb_of_samples (a := 1567143) (b := 1095457) (w := 865) <;> decide +kernel
  · apply notWithinLsb_of_samples (a := -196967) (b := 1940918) (w := -1309) <;> decide +kernel

end FpgaLabor
