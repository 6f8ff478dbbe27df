import Mathlib.Data.Nat.Basic
import Mathlib.Data.Nat.Find

/-!
# Steps since the last mark

Some steps of a sequence are marked. `elapsed mark n` is the number of steps before step `n` since the
last marked one, or since the start. A sequence is `Triggered` by thresholds if a step is marked exactly
when, itself counted, at least its threshold of steps have passed. The distance between two marks is then
bounded by the thresholds of the last two steps (`Triggered.gap`), and a constant threshold marks
periodically (`Triggered.periodic`), also if it is constant from some step on only
(`Triggered.periodic_from`).
-/

namespace FpgaLabor.Elapsed

/-- The steps before step `n` since the last marked one. -/
def elapsed (mark : ℕ → Bool) : ℕ → ℕ
  | 0 => 0
  | n + 1 => if mark n then 0 else elapsed mark n + 1

/-- Each of the first `len` steps is marked exactly when, itself counted, at least its threshold of steps
have passed since the last marked one. -/
def Triggered (threshold : ℕ → ℕ) (len : ℕ) (mark : ℕ → Bool) : Prop :=
  ∀ n < len, mark n = true ↔ threshold n ≤ elapsed mark n + 1

variable {mark : ℕ → Bool} {threshold : ℕ → ℕ} {len a n : ℕ}

@[simp] theorem elapsed_zero (mark : ℕ → Bool) : elapsed mark 0 = 0 := rfl

theorem elapsed_succ_of_mark (h : mark n = true) : elapsed mark (n + 1) = 0 := if_pos h

theorem elapsed_succ_of_not_mark (h : mark n = false) :
    elapsed mark (n + 1) = elapsed mark n + 1 := by
  rw [elapsed, if_neg (by rw [h]; exact Bool.false_ne_true)]

theorem elapsed_of_last (ha : mark a = true) (han : a < n)
    (hnone : ∀ k, a < k → k < n → mark k = false) : elapsed mark n + 1 = n - a := by
  induction n with
  | zero => omega
  | succ n ih =>
    rcases Nat.lt_succ_iff_lt_or_eq.mp han with hlt | rfl
    · have ih' := ih hlt fun k hak hkn => hnone k hak (Nat.lt_succ_of_lt hkn)
      rw [elapsed_succ_of_not_mark (hnone n hlt (Nat.lt_succ_self n))]
      omega
    · rw [elapsed_succ_of_mark ha]
      omega

/-- **Two marks in succession** are at least the threshold of the second one apart, and at most the
threshold of the step before it. -/
theorem Triggered.gap {b : ℕ} (h : Triggered threshold len mark) (hab : a < b) (hb : b < len)
    (ha : mark a = true) (hmark : mark b = true) (hnone : ∀ k, a < k → k < b → mark k = false) :
    max 1 (threshold b) ≤ b - a ∧ b - a ≤ max 1 (threshold (b - 1)) := by
  have hlast := elapsed_of_last ha hab hnone
  have hreached := (h b hb).mp hmark
  refine ⟨by omega, ?_⟩
  by_cases hnext : b = a + 1
  · omega
  · -- the step before `b` was not marked, so its threshold was not reached
    have hunmarked : mark (b - 1) = false := hnone (b - 1) (by omega) (by omega)
    have hbefore := elapsed_of_last (n := b - 1) ha (by omega) fun k hak hkb => hnone k hak (by omega)
    have hshort := (h (b - 1) (by omega)).not.mp (by rw [hunmarked]; exact Bool.false_ne_true)
    omega

theorem Triggered.periodic {d : ℕ} (h : Triggered (fun _ => d) len mark) (hn : n < len) :
    mark n = true ↔ max 1 d ∣ n + 1 := by
  obtain ⟨q, hq⟩ : ∃ q, max 1 d = q + 1 := Nat.exists_eq_add_of_le' (by omega)
  have hmod : ∀ n ≤ len, elapsed mark n = n % (q + 1) := by
    intro n
    induction n with
    | zero => exact fun _ => (Nat.zero_mod _).symm
    | succ n ih =>
      intro hn
      have hlt : n % (q + 1) < q + 1 := Nat.mod_lt n (Nat.succ_pos q)
      have hiff : mark n = true ↔ d ≤ n % (q + 1) + 1 := by
        rw [← ih (Nat.le_of_succ_le hn)]
        exact h n hn
      cases hmark : mark n with
      | true =>
        have hreached := hiff.mp hmark
        rw [elapsed_succ_of_mark hmark, eq_comm, Nat.succ_mod_succ_eq_zero_iff]
        omega
      | false =>
        have hshort := hiff.not.mp (by rw [hmark]; exact Bool.false_ne_true)
        rw [elapsed_succ_of_not_mark hmark, ih (Nat.le_of_succ_le hn), Nat.add_mod,
          Nat.mod_eq_of_lt (show 1 < q + 1 by omega),
          Nat.mod_eq_of_lt (show n % (q + 1) + 1 < q + 1 by omega)]
  have hlt : n % (q + 1) < q + 1 := Nat.mod_lt n (Nat.succ_pos q)
  have hiff : mark n = true ↔ d ≤ n % (q + 1) + 1 := by
    rw [← hmod n (Nat.le_of_lt hn)]
    exact h n hn
  rw [hiff, hq, Nat.dvd_iff_mod_eq_zero, Nat.succ_mod_succ_eq_zero_iff]
  omega

theorem elapsed_after (ha : mark a = true) (j : ℕ) :
    elapsed mark (a + 1 + j) = elapsed (fun k => mark (a + 1 + k)) j := by
  induction j with
  | zero => exact elapsed_succ_of_mark ha
  | succ j ih =>
    rw [← Nat.add_assoc, elapsed, elapsed, ih]

theorem Triggered.after {d : ℕ} (h : Triggered threshold len mark) (ha : mark a = true)
    (hconst : ∀ k, a < k → k < len → threshold k = d) :
    Triggered (fun _ => d) (len - (a + 1)) (fun k => mark (a + 1 + k)) := by
  intro j hj
  rw [← elapsed_after ha, ← hconst (a + 1 + j) (by omega) (by omega)]
  exact h (a + 1 + j) (by omega)

theorem elapsed_add_of_not_mark {j : ℕ} (hnone : ∀ k < j, mark (n + k) = false) :
    elapsed mark (n + j) = elapsed mark n + j := by
  induction j with
  | zero => rfl
  | succ j ih =>
    rw [← Nat.add_assoc, elapsed_succ_of_not_mark (hnone j (Nat.lt_succ_self j)),
      ih fun k hk => hnone k (Nat.lt_succ_of_lt hk)]
    rfl

theorem Triggered.exists_mark {d : ℕ} (hd : 1 ≤ d) (h : Triggered threshold len mark)
    (hconst : ∀ k, n ≤ k → k < len → threshold k = d) (hlen : n + d ≤ len) : ∃ k < d, mark (n + k) = true := by
  by_contra hnone
  have hunmarked : ∀ k < d, mark (n + k) = false := by
    intro k hk
    by_contra hne
    exact hnone ⟨k, hk, by simpa using hne⟩
  have hlast := (h (n + (d - 1)) (by omega)).not.mp (by rw [hunmarked (d - 1) (by omega)]; exact Bool.false_ne_true)
  rw [hconst _ (by omega) (by omega), elapsed_add_of_not_mark fun k hk => hunmarked k (by omega)] at hlast
  omega

/-- **A threshold that is constant from step `n` on** marks periodically from there on, at some phase. -/
theorem Triggered.periodic_from {d : ℕ} (hd : 1 ≤ d) (h : Triggered threshold len mark)
    (hconst : ∀ k, n ≤ k → k < len → threshold k = d) :
    ∃ a < d, ∀ m, n ≤ m → m < len → (mark m = true ↔ (m - n) % d = a) := by
  by_cases hmark : ∃ a, n + a < len ∧ mark (n + a) = true
  · -- the phase is that of the first mark, which comes within `d` steps
    obtain ⟨hlen, hfirst⟩ := Nat.find_spec hmark
    have hnone : ∀ k < Nat.find hmark, mark (n + k) = false := by
      intro k hk
      have hmin := Nat.find_min hmark hk
      rw [not_and, Bool.not_eq_true] at hmin
      exact hmin (by omega)
    generalize Nat.find hmark = a at hlen hfirst hnone
    have had : a < d := by
      by_contra hge
      obtain ⟨k, hk, hmk⟩ := h.exists_mark hd hconst (by omega)
      rw [hnone k (by omega)] at hmk
      exact Bool.false_ne_true hmk
    refine ⟨a, had, fun m hnm hm => ?_⟩
    rcases Nat.lt_trichotomy m (n + a) with hlt | rfl | hgt
    · have hm' := hnone (m - n) (by omega)
      rw [show n + (m - n) = m by omega] at hm'
      rw [hm', Nat.mod_eq_of_lt (by omega)]
      simp only [Bool.false_eq_true, false_iff]
      omega
    · rw [Nat.add_sub_cancel_left, Nat.mod_eq_of_lt had]
      exact iff_of_true hfirst rfl
    · have hafter := (h.after hfirst fun k hk hlen => hconst k (by omega) hlen).periodic
        (n := m - (n + a + 1)) (by omega)
      rw [show n + a + 1 + (m - (n + a + 1)) = m by omega, show m - (n + a + 1) + 1 = m - (n + a) by omega,
        Nat.max_eq_right hd] at hafter
      have hsplit : m - n = m - (n + a) + a := by omega
      rw [hafter, hsplit]
      refine ⟨?_, ?_⟩
      · rintro ⟨c, hc⟩
        rw [hc, Nat.mul_add_mod, Nat.mod_eq_of_lt had]
      · intro hmod
        have hdvd := Nat.dvd_sub_mod (n := d) (m - (n + a) + a)
        rwa [hmod, Nat.add_sub_cancel] at hdvd
  · -- too few steps for a mark
    have hnone : ∀ k, n + k < len → mark (n + k) = false := by
      intro k hk
      by_contra hne
      exact hmark ⟨k, hk, by simpa using hne⟩
    have hshort : len < n + d := by
      by_contra hge
      obtain ⟨k, hk, hmk⟩ := h.exists_mark hd hconst (by omega)
      exact hmark ⟨k, by omega, hmk⟩
    refine ⟨d - 1, by omega, fun m hnm hm => ?_⟩
    have hm' := hnone (m - n) (by omega)
    rw [show n + (m - n) = m by omega] at hm'
    rw [hm', Nat.mod_eq_of_lt (by omega)]
    simp only [Bool.false_eq_true, false_iff]
    omega

end FpgaLabor.Elapsed
