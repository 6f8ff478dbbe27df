import Mathlib.Algebra.BigOperators.Ring.Finset
import Mathlib.Algebra.Order.BigOperators.Group.Finset
import Mathlib.Algebra.Order.Ring.Int
import Mathlib.Tactic.Linarith
import Mathlib.Tactic.Ring

/-!
# Sums of truncated products

A filter adds products each of which is divided by `m` and rounded down. Two facts about such sums, over
any finite index set. How far they are off: truncating every term and then the sum gives the floor of the
exact sum or one less, as long as there are no more terms than the second divisor (`ediv_sum_ediv`). How
large they get when each factor ranges over an interval: every term is extreme at one of the ends of the
interval, according to the sign of the other factor (`sum_mem_Icc`, `sum_argPeak`).
-/

namespace FpgaLabor.TruncatedSum

variable {ι : Type*} {s : Finset ι} {m : ℤ}

/-! ### Accuracy -/

theorem mul_sum_ediv_le (hm : 0 < m) (a : ι → ℤ) : m * ∑ i ∈ s, a i / m ≤ ∑ i ∈ s, a i := by
  rw [Finset.mul_sum]
  exact Finset.sum_le_sum fun i _ => Int.mul_ediv_self_le hm.ne'

theorem sum_le_mul_sum_ediv (hm : 0 < m) (a : ι → ℤ) :
    ∑ i ∈ s, a i ≤ m * (∑ i ∈ s, a i / m) + s.card * (m - 1) := by
  have hterm : ∀ i ∈ s, a i ≤ m * (a i / m) + (m - 1) := by
    intro i _
    have hdiv := Int.mul_ediv_add_emod (a i) m
    have hmod := Int.emod_lt_of_pos (a i) hm
    linarith
  calc ∑ i ∈ s, a i ≤ ∑ i ∈ s, (m * (a i / m) + (m - 1)) := Finset.sum_le_sum hterm
    _ = m * (∑ i ∈ s, a i / m) + s.card * (m - 1) := by
      rw [Finset.sum_add_distrib, Finset.mul_sum, Finset.sum_const, nsmul_eq_mul]

/-- **Two truncations** of a sum, of every term by `m` and of their sum by `k`, lose at most one unit
against the truncation of the exact sum. -/
theorem ediv_sum_ediv {k : ℤ} (hm : 0 < m) (hk : 0 < k) (hcard : s.card ≤ k) (a : ι → ℤ) :
    (∑ i ∈ s, a i / m) / k = (∑ i ∈ s, a i) / (m * k) ∨
      (∑ i ∈ s, a i / m) / k = (∑ i ∈ s, a i) / (m * k) - 1 := by
  have hlo := mul_sum_ediv_le hm a (s := s)
  have hhi := sum_le_mul_sum_ediv hm a (s := s)
  generalize ∑ i ∈ s, a i / m = A at hlo hhi ⊢
  generalize ∑ i ∈ s, a i = Y at hlo hhi ⊢
  have hmk : 0 < m * k := Int.mul_pos hm hk
  have hq := Int.mul_ediv_self_le (x := A) hk.ne'
  have hq' := Int.lt_mul_ediv_self_add (x := A) hk
  have hloss : s.card * (m - 1) ≤ k * (m - 1) := Int.mul_le_mul_of_nonneg_right hcard (by omega)
  have hbelow : A / k ≤ Y / (m * k) := by
    rw [Int.le_ediv_iff_mul_le hmk]
    nlinarith only [hq, hlo, hm]
  have habove : Y / (m * k) < A / k + 2 := by
    rw [Int.ediv_lt_iff_lt_mul hmk]
    nlinarith only [hq', hhi, hloss, hm, hk]
  omega

/-! ### Extremes -/

/-- The largest truncated product of `c` with a factor between `lo` and `hi`. -/
def peak (m lo hi c : ℤ) : ℤ := max (lo * c / m) (hi * c / m)

/-- The smallest one. -/
def trough (m lo hi c : ℤ) : ℤ := min (lo * c / m) (hi * c / m)

/-- The factor that attains the largest one. -/
def argPeak (lo hi c : ℤ) : ℤ := if 0 ≤ c then hi else lo

/-- The factor that attains the smallest one. -/
def argTrough (lo hi c : ℤ) : ℤ := if 0 ≤ c then lo else hi

variable {lo hi : ℤ}

theorem argPeak_mem (hle : lo ≤ hi) (c : ℤ) : lo ≤ argPeak lo hi c ∧ argPeak lo hi c ≤ hi := by
  unfold argPeak
  split_ifs
  · exact ⟨hle, le_refl hi⟩
  · exact ⟨le_refl lo, hle⟩

theorem argTrough_mem (hle : lo ≤ hi) (c : ℤ) : lo ≤ argTrough lo hi c ∧ argTrough lo hi c ≤ hi := by
  unfold argTrough
  split_ifs
  · exact ⟨le_refl lo, hle⟩
  · exact ⟨hle, le_refl hi⟩

theorem ediv_mem_Icc (hm : 0 < m) (c : ℤ) {x : ℤ} (hlo : lo ≤ x) (hhi : x ≤ hi) :
    argTrough lo hi c * c / m ≤ x * c / m ∧ x * c / m ≤ argPeak lo hi c * c / m := by
  unfold argTrough argPeak
  split_ifs with hc
  · exact ⟨Int.ediv_le_ediv hm (Int.mul_le_mul_of_nonneg_right hlo hc),
      Int.ediv_le_ediv hm (Int.mul_le_mul_of_nonneg_right hhi hc)⟩
  · have hc' : c ≤ 0 := by omega
    exact ⟨Int.ediv_le_ediv hm (Int.mul_le_mul_of_nonpos_right hhi hc'),
      Int.ediv_le_ediv hm (Int.mul_le_mul_of_nonpos_right hlo hc')⟩

theorem argPeak_mul_ediv (hm : 0 < m) (hle : lo ≤ hi) (c : ℤ) :
    argPeak lo hi c * c / m = peak m lo hi c := by
  apply le_antisymm
  · unfold argPeak peak
    split_ifs
    · exact le_max_right _ _
    · exact le_max_left _ _
  · exact max_le (ediv_mem_Icc hm c (le_refl lo) hle).2 (ediv_mem_Icc hm c hle (le_refl hi)).2

theorem argTrough_mul_ediv (hm : 0 < m) (hle : lo ≤ hi) (c : ℤ) :
    argTrough lo hi c * c / m = trough m lo hi c := by
  apply le_antisymm
  · exact le_min (ediv_mem_Icc hm c (le_refl lo) hle).1 (ediv_mem_Icc hm c hle (le_refl hi)).1
  · unfold argTrough trough
    split_ifs
    · exact min_le_left _ _
    · exact min_le_right _ _

/-- **The range of a sum** whose factors range over an interval. -/
theorem sum_mem_Icc (hm : 0 < m) (c x : ι → ℤ) (hx : ∀ i ∈ s, lo ≤ x i ∧ x i ≤ hi) :
    ∑ i ∈ s, trough m lo hi (c i) ≤ ∑ i ∈ s, x i * c i / m ∧
      ∑ i ∈ s, x i * c i / m ≤ ∑ i ∈ s, peak m lo hi (c i) := by
  refine ⟨?_, ?_⟩
  · refine Finset.sum_le_sum fun i hi => ?_
    obtain ⟨h₁, h₂⟩ := hx i hi
    rw [← argTrough_mul_ediv hm (h₁.trans h₂)]
    exact (ediv_mem_Icc hm (c i) h₁ h₂).1
  · refine Finset.sum_le_sum fun i hi => ?_
    obtain ⟨h₁, h₂⟩ := hx i hi
    rw [← argPeak_mul_ediv hm (h₁.trans h₂)]
    exact (ediv_mem_Icc hm (c i) h₁ h₂).2

theorem sum_argPeak (hm : 0 < m) (hle : lo ≤ hi) (c : ι → ℤ) :
    ∑ i ∈ s, argPeak lo hi (c i) * c i / m = ∑ i ∈ s, peak m lo hi (c i) :=
  Finset.sum_congr rfl fun i _ => argPeak_mul_ediv hm hle (c i)

theorem sum_argTrough (hm : 0 < m) (hle : lo ≤ hi) (c : ι → ℤ) :
    ∑ i ∈ s, argTrough lo hi (c i) * c i / m = ∑ i ∈ s, trough m lo hi (c i) :=
  Finset.sum_congr rfl fun i _ => argTrough_mul_ediv hm hle (c i)

end FpgaLabor.TruncatedSum
