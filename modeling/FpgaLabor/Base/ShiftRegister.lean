import Mathlib.Data.List.Induction
import Mathlib.Data.List.Nodup
import Mathlib.Data.List.Perm.Subperm
import Mathlib.Data.Nat.Basic
import Mathlib.Order.Monotone.Basic

/-!
# Clocked registers, shift registers and edges of sampled waveforms

`stateAt` is the state of a clocked block cycle by cycle: in cycle `t` the registers are
`stateAt … t`, and the clock edge that ends the cycle samples the inputs `inp t`. A shift register
fed with a waveform holds the waveform delayed (`getLsbD_of_shifting`); one that shifts only in some
cycles holds, newest bit last, the bits shifted in (`getLsbD_foldl_shiftIn`).

An edge of a waveform is named by the first sample after it; the sample before sample `0` is taken
as `0`.
-/

namespace FpgaLabor.ShiftRegister

variable {w : ℕ} {σ ι : Type*}

/-- The registers in cycle `t`. -/
def stateAt (next : σ → ι → σ) (s : σ) (inp : ℕ → ι) : ℕ → σ
  | 0 => s
  | t + 1 => next (stateAt next s inp t) (inp t)

/-- `{v[w-1:0], b}`. -/
def shiftIn (v : BitVec (w + 1)) (b : Bool) : BitVec (w + 1) := v.extractLsb' 0 w ++ BitVec.ofBool b

theorem getLsbD_shiftIn_zero (v : BitVec (w + 1)) (b : Bool) : (shiftIn v b).getLsbD 0 = b := by
  rw [shiftIn, BitVec.getLsbD_append, if_pos (by omega), BitVec.getLsbD_ofBool]
  rfl

theorem getLsbD_shiftIn_succ (v : BitVec (w + 1)) (b : Bool) {i : ℕ} (hi : i < w) :
    (shiftIn v b).getLsbD (i + 1) = v.getLsbD i := by
  rw [shiftIn, BitVec.getLsbD_append, if_neg (by omega), BitVec.getLsbD_extractLsb',
    Nat.add_sub_cancel, Nat.zero_add, decide_eq_true hi, Bool.true_and]

/-- The waveform `x` as stage `i` of a shift register shows it in cycle `t`: `i + 1` samples old. -/
def delayed (x : ℕ → Bool) (t i : ℕ) : Bool := if i < t then x (t - 1 - i) else false

/-- A cleared shift register fed with `x` shows `x` delayed. -/
theorem getLsbD_of_shifting {v : ℕ → BitVec (w + 1)} {x : ℕ → Bool} (hinit : v 0 = 0)
    (hstep : ∀ t, v (t + 1) = shiftIn (v t) (x t)) (t : ℕ) {i : ℕ} (hi : i ≤ w) :
    (v t).getLsbD i = delayed x t i := by
  induction t generalizing i with
  | zero => simp [hinit, delayed]
  | succ t ih =>
    rw [hstep]
    cases i with
    | zero => rw [getLsbD_shiftIn_zero]; rfl
    | succ i =>
      rw [getLsbD_shiftIn_succ _ _ (by omega), ih (by omega)]
      simp only [delayed, Nat.add_lt_add_iff_right]
      congr 2
      omega

theorem getLsbD_foldl_shiftIn (v : BitVec (w + 1)) (bits : List Bool) {i : ℕ} (hi : i ≤ w)
    (hlen : i < bits.length) : (bits.foldl shiftIn v).getLsbD i = bits[bits.length - 1 - i] := by
  induction bits using List.reverseRecOn generalizing i with
  | nil => simp at hlen
  | append_singleton bits b ih =>
    rw [List.foldl_append, List.foldl_cons, List.foldl_nil]
    cases i with
    | zero =>
      rw [getLsbD_shiftIn_zero]
      simp
    | succ i =>
      have hlen' : i < bits.length := by simpa using hlen
      have hidx : (bits ++ [b]).length - 1 - (i + 1) = bits.length - 1 - i := by
        rw [List.length_append, List.length_singleton]
        omega
      rw [getLsbD_shiftIn_succ _ _ (by omega), ih (by omega) hlen']
      simp only [hidx]
      rw [List.getElem_append_left]

/-! ### Edges -/

/-- The sample before sample `j`. -/
def prev (x : ℕ → Bool) : ℕ → Bool
  | 0 => false
  | j + 1 => x j

/-- Sample `j` is the first after a rising edge. -/
def rise (x : ℕ → Bool) (j : ℕ) : Bool := !prev x j && x j

/-- Sample `j` is the first after a falling edge. -/
def fall (x : ℕ → Bool) (j : ℕ) : Bool := prev x j && !x j

/-- The samples `j` with `a ≤ j < b` that satisfy `p`, in order. -/
def samplesIn (p : ℕ → Bool) (a b : ℕ) : List ℕ := (List.range' a (b - a)).filter p

theorem delayed_one (x : ℕ → Bool) (j : ℕ) : delayed x (j + 2) 1 = x j := by
  simp [delayed]

theorem delayed_two (x : ℕ → Bool) (j : ℕ) : delayed x (j + 2) 2 = prev x j := by
  cases j with
  | zero => rfl
  | succ j => simp [delayed, prev]

theorem rise_iff_delayed (x : ℕ → Bool) (t : ℕ) :
    (delayed x t 2 = false ∧ delayed x t 1 = true) ↔ ∃ j, t = j + 2 ∧ rise x j = true := by
  refine ⟨?_, ?_⟩
  · rintro ⟨h2, h1⟩
    have ht : 1 < t := by
      by_contra hlt
      rw [delayed, if_neg hlt] at h1
      cases h1
    obtain ⟨j, rfl⟩ := Nat.exists_eq_add_of_le' ht
    rw [delayed_two] at h2
    rw [delayed_one] at h1
    exact ⟨j, rfl, by rw [rise, h2, h1]; rfl⟩
  · rintro ⟨j, rfl, hj⟩
    rw [rise, Bool.and_eq_true, Bool.not_eq_true'] at hj
    rw [delayed_two, delayed_one]
    exact hj

theorem fall_iff_delayed (x : ℕ → Bool) (t : ℕ) :
    (delayed x t 2 = true ∧ delayed x t 1 = false) ↔ ∃ j, t = j + 2 ∧ fall x j = true := by
  refine ⟨?_, ?_⟩
  · rintro ⟨h2, h1⟩
    have ht : 1 < t := by
      by_contra hlt
      rw [delayed, if_neg (by omega)] at h2
      cases h2
    obtain ⟨j, rfl⟩ := Nat.exists_eq_add_of_le' ht
    rw [delayed_two] at h2
    rw [delayed_one] at h1
    exact ⟨j, rfl, by rw [fall, h2, h1]; rfl⟩
  · rintro ⟨j, rfl, hj⟩
    rw [fall, Bool.and_eq_true, Bool.not_eq_true'] at hj
    rw [delayed_two, delayed_one]
    exact hj

theorem samplesIn_succ (p : ℕ → Bool) {a b : ℕ} (hab : a ≤ b) :
    samplesIn p a (b + 1) = samplesIn p a b ++ if p b then [b] else [] := by
  have hrange : List.range' a (b + 1 - a) = List.range' a (b - a) ++ [b] := by
    rw [show b + 1 - a = b - a + 1 by omega, List.range'_concat, Nat.one_mul, Nat.add_sub_cancel' hab]
  rw [samplesIn, hrange, List.filter_append]
  congr 1
  cases hb : p b <;> simp [hb]

theorem samplesIn_append (p : ℕ → Bool) {a b c : ℕ} (hab : a ≤ b) (hbc : b ≤ c) :
    samplesIn p a c = samplesIn p a b ++ samplesIn p b c := by
  rw [samplesIn, samplesIn, samplesIn, ← List.filter_append]
  congr 1
  rw [show List.range' b (c - b) = List.range' (a + (b - a)) (c - b) by rw [Nat.add_sub_cancel' hab],
    List.range'_append_1]
  congr 1
  omega

theorem mem_samplesIn {p : ℕ → Bool} {a b j : ℕ} :
    j ∈ samplesIn p a b ↔ a ≤ j ∧ j < b ∧ p j = true := by
  rw [samplesIn, List.mem_filter, List.mem_range'_1]
  refine ⟨?_, ?_⟩
  · rintro ⟨⟨h1, h2⟩, h3⟩
    exact ⟨h1, by omega, h3⟩
  · rintro ⟨h1, h2, h3⟩
    exact ⟨⟨h1, by omega⟩, h3⟩

theorem samplesIn_from {p : ℕ → Bool} {a : ℕ} (h : ∀ j, p j = true → a ≤ j) (b : ℕ) :
    samplesIn p 0 b = samplesIn p a b := by
  have hnone : ∀ c, c ≤ a → samplesIn p 0 c = [] := by
    intro c hc
    rw [List.eq_nil_iff_forall_not_mem]
    intro j hj
    obtain ⟨-, hjc, hpj⟩ := mem_samplesIn.mp hj
    have haj := h j hpj
    omega
  by_cases hab : a ≤ b
  · rw [samplesIn_append p (Nat.zero_le a) hab, hnone a (le_refl a), List.nil_append]
  · rw [hnone b (by omega), samplesIn, Nat.sub_eq_zero_of_le (by omega)]
    rfl

theorem le_length_samplesIn {p : ℕ → Bool} {a b n : ℕ} {f : ℕ → ℕ} (hf : StrictMono f)
    (h : ∀ k < n, a ≤ f k ∧ f k < b ∧ p (f k) = true) : n ≤ (samplesIn p a b).length := by
  have hnodup : ((List.range n).map f).Nodup := List.nodup_range.map hf.injective
  have hsub : (List.range n).map f ⊆ samplesIn p a b := by
    intro j hj
    obtain ⟨k, hk, rfl⟩ := List.mem_map.mp hj
    exact mem_samplesIn.mpr (h k (List.mem_range.mp hk))
  have hlength := (List.subperm_of_subset hnodup hsub).length_le
  rwa [List.length_map, List.length_range] at hlength

end FpgaLabor.ShiftRegister
