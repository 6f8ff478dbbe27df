import FpgaLabor.Base.EdgePairs
import FpgaLabor.Rtl.AudioInterface

/-!
# Stereo pairing from the moment audio is enabled

`adc_valid_l` writes `fifo_generator_1`, `adc_valid_r` writes `fifo_generator_2`, and `fir_hw` joins the
two by position. `en` only masks the valids, so the first word after it rises belongs to whichever half
frame ends first: a left word if LRCLK is high then, a right word without its left one if it is low.
-/

namespace FpgaLabor.AudioInterface

open ShiftRegister

/-- The sampled LRCLK. -/
def lrclk (inp : ℕ → Inputs) (j : ℕ) : Bool := (inp j).codecLrclk

/-- The cycles of `[e, T)` that write `fifo_generator_1`. -/
def leftWrites (adcDataShr : BitVec 32) (inp : ℕ → Inputs) (e T : ℕ) : List ℕ :=
  samplesIn (fun t => adcValidL (regs adcDataShr inp t) (inp t)) e T

/-- The cycles of `[e, T)` that write `fifo_generator_2`. -/
def rightWrites (adcDataShr : BitVec 32) (inp : ℕ → Inputs) (e T : ℕ) : List ℕ :=
  samplesIn (fun t => adcValidR (regs adcDataShr inp t) (inp t)) e T

/-- The left word written in cycle `tl` is of the high half that ends with the fall at `tl - 2`, the
right word written in cycle `tr` of the low half that follows it. -/
def SameFrame (inp : ℕ → Inputs) (tl tr : ℕ) : Prop :=
  ∃ j j', tl = j + 2 ∧ tr = j' + 2 ∧ NextRise (lrclk inp) j j'

/-! ### Writes are edges, two cycles later -/

theorem samplesIn_add_two {p q : ℕ → Bool} {e : ℕ}
    (h : ∀ t, e ≤ t → (p t = true ↔ ∃ j, t = j + 2 ∧ q j = true)) (T : ℕ) :
    samplesIn p e T = (samplesIn q (e - 2) (T - 2)).map (· + 2) := by
  by_cases hlt : T < e
  · rw [samplesIn, samplesIn, Nat.sub_eq_zero_of_le (Nat.le_of_lt hlt),
      Nat.sub_eq_zero_of_le (show T - 2 ≤ e - 2 by omega)]
    rfl
  · have heT : e ≤ T := Nat.not_lt.mp hlt
    clear hlt
    induction T, heT using Nat.le_induction with
    | base =>
      rw [samplesIn, samplesIn, Nat.sub_self, Nat.sub_self]
      rfl
    | succ T heT ih =>
      rw [samplesIn_succ p heT, ih]
      by_cases hfew : T < 2
      · -- the synchroniser has not filled yet: no valid
        rw [if_neg (fun hp => by obtain ⟨j, hj, -⟩ := (h T heT).mp hp; omega), List.append_nil,
          show T - 2 = 0 by omega, show T + 1 - 2 = 0 by omega]
      · obtain ⟨j, rfl⟩ := Nat.exists_eq_add_of_le' (Nat.not_lt.mp hfew)
        have hpq : p (j + 2) = q j := by
          rw [Bool.eq_iff_iff, h _ heT]
          refine ⟨?_, ?_⟩
          · rintro ⟨j', hj', hq⟩
            obtain rfl : j' = j := by omega
            exact hq
          · intro hq
            exact ⟨j, rfl, hq⟩
        rw [show j + 2 + 1 - 2 = j + 1 by omega, Nat.add_sub_cancel,
          samplesIn_succ q (show e - 2 ≤ j by omega), List.map_append, hpq]
        cases q j <;> rfl

theorem exists_gated_iff {inp : ℕ → Inputs} {t : ℕ} (hen : (inp t).en = true) (p : ℕ → Prop) :
    (∃ j, t = j + 2 ∧ p j ∧ (inp t).en = true) ↔ ∃ j, t = j + 2 ∧ p j := by
  simp only [hen, and_true]

section Enabled

variable {adcDataShr : BitVec 32} {inp : ℕ → Inputs} {e : ℕ} (hrst : ∀ t, (inp t).rstN = true)
  (hen : ∀ t, e ≤ t → (inp t).en = true)
include hrst hen

theorem leftWrites_eq (T : ℕ) :
    leftWrites adcDataShr inp e T = (samplesIn (fall (lrclk inp)) (e - 2) (T - 2)).map (· + 2) := by
  refine samplesIn_add_two (fun t het => ?_) T
  rw [adcValidL_iff hrst]
  exact exists_gated_iff (hen t het) _

theorem rightWrites_eq (T : ℕ) :
    rightWrites adcDataShr inp e T = (samplesIn (rise (lrclk inp)) (e - 2) (T - 2)).map (· + 2) := by
  refine samplesIn_add_two (fun t het => ?_) T
  rw [adcValidR_iff hrst]
  exact exists_gated_iff (hen t het) _

end Enabled

theorem prev_lrclk_iff (inp : ℕ → Inputs) (e : ℕ) :
    prev (lrclk inp) (e - 2) = true ↔ 3 ≤ e ∧ lrclk inp (e - 3) = true := by
  match e with
  | 0 | 1 | 2 => simp [prev]
  | e + 3 => simp [prev]

/-- **Stereo pairing.** With `en` high from cycle `e` on and FIFOs that never overflow, the words joined
by position are of the same frame exactly when `en` rises in a high half frame, or LRCLK never falls
again. -/
theorem stereo_paired_iff (inp : ℕ → Inputs) (adcDataShr : BitVec 32) (e : ℕ)
    (hrst : ∀ t, (inp t).rstN = true) (hen : ∀ t, e ≤ t → (inp t).en = true) :
    (∀ T k tl tr : ℕ, (leftWrites adcDataShr inp e T)[k]? = some tl →
        (rightWrites adcDataShr inp e T)[k]? = some tr → SameFrame inp tl tr) ↔
      (3 ≤ e ∧ lrclk inp (e - 3) = true) ∨ ∀ j, e ≤ j + 2 → fall (lrclk inp) j = false := by
  refine ⟨?_, ?_⟩
  · intro hpaired
    by_contra hnot
    obtain ⟨hlow, hfalls⟩ := not_or.mp hnot
    rw [← prev_lrclk_iff, Bool.not_eq_true] at hlow
    simp only [not_forall, Bool.not_eq_false] at hfalls
    obtain ⟨j, hej, hj⟩ := hfalls
    -- the first right word was written before the first left word
    obtain ⟨j₀, r₀, hj₀, hr₀, hlt⟩ := exists_rise_lt_fall hlow (show e - 2 ≤ j by omega) hj
    have hl : (leftWrites adcDataShr inp e (j + 3))[0]? = some (j₀ + 2) := by
      rw [leftWrites_eq hrst hen, show j + 3 - 2 = j + 1 by omega, List.getElem?_map, hj₀]
      rfl
    have hr : (rightWrites adcDataShr inp e (j + 3))[0]? = some (r₀ + 2) := by
      rw [rightWrites_eq hrst hen, show j + 3 - 2 = j + 1 by omega, List.getElem?_map, hr₀]
      rfl
    obtain ⟨i, i', hi, hi', hii', -⟩ := hpaired _ _ _ _ hl hr
    omega
  · intro hcond T k tl tr hl hr
    rw [leftWrites_eq hrst hen, List.getElem?_map, Option.map_eq_some_iff] at hl
    rw [rightWrites_eq hrst hen, List.getElem?_map, Option.map_eq_some_iff] at hr
    obtain ⟨j, hj, rfl⟩ := hl
    obtain ⟨j', hj', rfl⟩ := hr
    obtain ⟨hej, hjT, hfall⟩ := mem_samplesIn.mp (List.mem_of_getElem? hj)
    rcases hcond with hhigh | hnone
    · rw [← prev_lrclk_iff] at hhigh
      exact ⟨j, j', rfl, rfl, (Paired.of_high hhigh (by omega)).next k j j' hj hj'⟩
    · rw [hnone j (by omega)] at hfall
      cases hfall

/-- LRCLK of period 8, starting low, with `en` rising in cycle `e`. -/
def enabledAt (e t : ℕ) : Inputs where
  rstN := true
  en := decide (e ≤ t)
  codecLrclk := decide (t / 4 % 2 = 1)
  codecBclk := false
  codecSdout := false

/-- Enabled in cycle 8, three cycles after a sample of the high half. -/
theorem stereo_paired_enabledAt_eight : SameFrame (enabledAt 8) 10 14 :=
  (stereo_paired_iff (enabledAt 8) 0 8 (fun _ => rfl) (fun _ h => decide_eq_true h)).2
    (.inl ⟨by decide, by decide⟩) 20 0 10 14 (by decide) (by decide)

/-- Enabled in the low half, the first left word is joined with the right word of the frame before. -/
theorem stereo_unpaired_enabledAt_twelve :
    ¬ ∀ (inp : ℕ → Inputs) (adcDataShr : BitVec 32) (e : ℕ), (∀ t, (inp t).rstN = true) →
      (∀ t, (inp t).en = decide (e ≤ t)) → ∀ T k tl tr : ℕ,
        (leftWrites adcDataShr inp e T)[k]? = some tl →
        (rightWrites adcDataShr inp e T)[k]? = some tr → SameFrame inp tl tr := by
  intro hclaim
  have hl : (leftWrites 0 (enabledAt 12) 12 20)[0]? = some 18 := by decide
  have hr : (rightWrites 0 (enabledAt 12) 12 20)[0]? = some 14 := by decide
  obtain ⟨j, j', hj, hj', hlt, -⟩ :=
    hclaim (enabledAt 12) 0 12 (fun _ => rfl) (fun _ => rfl) 20 0 18 14 hl hr
  omega

end FpgaLabor.AudioInterface
