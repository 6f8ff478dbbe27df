import FpgaLabor.Base.ShiftRegister
import Mathlib.Algebra.BigOperators.Intervals
import Mathlib.Algebra.Order.BigOperators.Group.Finset

/-!
# The backlog of a server

Jobs of cost `c` arrive one by one, a step serves one unit of the `work` there is, and some steps are lost. A
busy period starts where there was last little work (`exists_busy`), and what has arrived and been lost since
then bounds the work. If arrivals keep a distance that pays for the job and its share of the lost steps, the
work never exceeds a bound that does not depend on how long the server has run (`work_le`).
-/

namespace FpgaLabor.Backlog

open ShiftRegister (samplesIn samplesIn_succ samplesIn_append mem_samplesIn)

/-- The arrivals in the steps `[a, b)`. -/
def arrivals (p : ℕ → Bool) (a b : ℕ) : ℕ := (samplesIn p a b).length

variable {p : ℕ → Bool} {a b : ℕ}

@[simp] theorem arrivals_self (p : ℕ → Bool) (a : ℕ) : arrivals p a a = 0 := by
  simp [arrivals, samplesIn]

theorem arrivals_succ (hab : a ≤ b) : arrivals p a (b + 1) = arrivals p a b + if p b then 1 else 0 := by
  rw [arrivals, samplesIn_succ p hab, List.length_append]
  split_ifs
  · rfl
  · rfl

theorem mul_arrivals_le {d : ℕ} (hspaced : ∀ i j, i < j → p i = true → p j = true → i + d ≤ j) (hab : a ≤ b) :
    d * arrivals p a b ≤ b - a + d := by
  induction b using Nat.strong_induction_on with
  | _ b ih =>
    rcases hab.eq_or_lt with rfl | hlt
    · simp
    obtain ⟨b, rfl⟩ := Nat.exists_eq_add_of_le' (Nat.lt_of_le_of_lt (Nat.zero_le a) hlt)
    have hab' : a ≤ b := Nat.le_of_lt_succ hlt
    rw [arrivals_succ hab']
    by_cases hp : p b = true
    · -- nothing has arrived in the last `d` steps before `b`
      have hnone : ∀ m, b < m + d → m ≤ b → a ≤ m → samplesIn p m b = [] := by
        intro m hm hmb _
        rw [List.eq_nil_iff_forall_not_mem]
        intro i hi
        obtain ⟨hmi, hib, hpi⟩ := mem_samplesIn.mp hi
        have hdist := hspaced i b hib hpi hp
        omega
      rw [if_pos hp]
      by_cases hfew : b < a + d
      · have hzero : arrivals p a b = 0 := by rw [arrivals, hnone a hfew hab' (le_refl a), List.length_nil]
        rw [hzero]
        omega
      · rcases Nat.eq_zero_or_pos d with rfl | hd
        · simp
        have hprev := ih (b + 1 - d) (by omega) (by omega)
        have hsplit : arrivals p a b = arrivals p a (b + 1 - d) := by
          rw [arrivals, samplesIn_append p (show a ≤ b + 1 - d by omega) (show b + 1 - d ≤ b by omega),
            hnone (b + 1 - d) (by omega) (by omega) (by omega), List.append_nil, arrivals]
        rw [hsplit, Nat.mul_add, Nat.mul_one]
        omega
    · have hprev := ih b (Nat.lt_succ_self b) hab'
      rw [if_neg hp, Nat.add_zero]
      omega

section Work

variable {work lost : ℕ → ℕ} {idle : ℕ → Bool} {c bound n : ℕ}
  (hstep : ∀ t < n, work (t + 1) + 1 ≤ work t + c * (if p t then 1 else 0) + lost t + if idle t then 1 else 0)
  (hidle : ∀ t < n, idle t = true → work t ≤ bound) (h0 : work 0 ≤ bound)
include hstep hidle h0

/-- **Busy periods.** Since some step the server has served one unit in each step that was not lost. -/
theorem exists_busy :
    ∃ s ≤ n, work n + (n - s) ≤ bound + 1 + c * arrivals p s n + ∑ k ∈ Finset.Ico s n, lost k := by
  induction n with
  | zero => exact ⟨0, le_refl 0, by simp; omega⟩
  | succ n ih =>
    have hnext := hstep n (Nat.lt_succ_self n)
    by_cases hi : idle n = true
    · have hlow := hidle n (Nat.lt_succ_self n) hi
      refine ⟨n, Nat.le_succ n, ?_⟩
      rw [arrivals_succ (le_refl n), arrivals_self, Nat.zero_add, Nat.Ico_succ_singleton, Finset.sum_singleton]
      rw [if_pos hi] at hnext
      omega
    · obtain ⟨s, hst, hbusy⟩ :=
        ih (fun t ht => hstep t (Nat.lt_succ_of_lt ht)) fun t ht => hidle t (Nat.lt_succ_of_lt ht)
      refine ⟨s, Nat.le_succ_of_le hst, ?_⟩
      rw [arrivals_succ hst, Finset.sum_Ico_succ_top hst, Nat.mul_add]
      rw [if_neg hi] at hnext
      omega

/-- **The backlog is bounded** if arrivals keep a distance of `c + share`, and in no period more steps are lost
than `burst` and a `share` for each arrival. -/
theorem work_le {d share burst : ℕ} (hspaced : ∀ i j, i < j → p i = true → p j = true → i + d ≤ j)
    (hlost : ∀ s ≤ n, ∑ k ∈ Finset.Ico s n, lost k ≤ burst + share * arrivals p s n) (hd : c + share ≤ d) :
    work n ≤ bound + 1 + burst + d := by
  obtain ⟨s, hst, hbusy⟩ := exists_busy hstep hidle h0
  have hlost := hlost s hst
  have hfew := mul_arrivals_le hspaced hst
  have hpaid : c * arrivals p s n + share * arrivals p s n ≤ d * arrivals p s n := by
    rw [← Nat.add_mul]
    exact Nat.mul_le_mul_right _ hd
  omega

end Work

end FpgaLabor.Backlog
