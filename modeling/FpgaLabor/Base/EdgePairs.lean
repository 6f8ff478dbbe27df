import FpgaLabor.Base.ShiftRegister

/-!
# Pairing the edges of a waveform by position

The falling edges of a waveform from sample `a` on and the rising edges from sample `a` on, matched by
position. If the waveform is high before `a` the two alternate starting with a fall, so position `k`
matches each falling edge with the rising edge that ends its low half (`Paired.of_high`). If it is low
before `a` a rise comes first, and already position `0` matches a fall with an earlier rise
(`exists_rise_lt_fall`).
-/

namespace FpgaLabor.ShiftRegister

variable {x : ℕ → Bool} {a b : ℕ}

/-- The rising edge `j'` ends the low half that the falling edge `j` starts. -/
def NextRise (x : ℕ → Bool) (j j' : ℕ) : Prop :=
  j < j' ∧ fall x j = true ∧ rise x j' = true ∧ ∀ i, j < i → i < j' → x i = prev x i

/-- Position by position the falls in `[a, b)` are matched with the rises that end their low halves; if
the waveform is low before `b`, one last fall is still open. -/
structure Paired (x : ℕ → Bool) (a b : ℕ) : Prop where
  next : ∀ k j j' : ℕ, (samplesIn (fall x) a b)[k]? = some j →
    (samplesIn (rise x) a b)[k]? = some j' → NextRise x j j'
  high : prev x b = true → (samplesIn (fall x) a b).length = (samplesIn (rise x) a b).length
  low : prev x b = false → ∃ falls j, samplesIn (fall x) a b = falls ++ [j] ∧
    falls.length = (samplesIn (rise x) a b).length ∧ ∀ i, j < i → i < b → x i = prev x i

theorem samplesIn_succ_of_true {p : ℕ → Bool} (hab : a ≤ b) (hb : p b = true) :
    samplesIn p a (b + 1) = samplesIn p a b ++ [b] := by
  rw [samplesIn_succ p hab, if_pos hb]

theorem samplesIn_succ_of_false {p : ℕ → Bool} (hab : a ≤ b) (hb : p b = false) :
    samplesIn p a (b + 1) = samplesIn p a b := by
  rw [samplesIn_succ p hab, hb, if_neg Bool.false_ne_true, List.append_nil]

theorem Paired.after_still (h : Paired x a b) (hab : a ≤ b) (hx : x b = prev x b) : Paired x a (b + 1) := by
  have hfall : samplesIn (fall x) a (b + 1) = samplesIn (fall x) a b :=
    samplesIn_succ_of_false hab (by rw [fall, hx, Bool.and_not_self])
  have hrise : samplesIn (rise x) a (b + 1) = samplesIn (rise x) a b :=
    samplesIn_succ_of_false hab (by rw [rise, hx, Bool.not_and_self])
  refine ⟨?_, ?_, ?_⟩
  · rw [hfall, hrise]
    exact h.next
  · intro hhigh
    rw [hfall, hrise]
    exact h.high (hx ▸ hhigh)
  · intro hlow
    obtain ⟨falls, j, hfalls, hlen, hopen⟩ := h.low (hx ▸ hlow)
    refine ⟨falls, j, hfall.trans hfalls, hlen.trans (congrArg List.length hrise.symm), ?_⟩
    intro i hji hib
    rcases Nat.lt_succ_iff_lt_or_eq.mp hib with hlt | rfl
    · exact hopen i hji hlt
    · exact hx

theorem Paired.after_fall (h : Paired x a b) (hab : a ≤ b) (hprev : prev x b = true) (hx : x b = false) :
    Paired x a (b + 1) := by
  have hfall : samplesIn (fall x) a (b + 1) = samplesIn (fall x) a b ++ [b] :=
    samplesIn_succ_of_true hab (by rw [fall, hprev, hx]; rfl)
  have hrise : samplesIn (rise x) a (b + 1) = samplesIn (rise x) a b :=
    samplesIn_succ_of_false hab (by rw [rise, hprev]; rfl)
  have hlen := h.high hprev
  refine ⟨?_, ?_, ?_⟩
  · rw [hfall, hrise]
    intro k j j' hj hj'
    have hk : k < (samplesIn (rise x) a b).length := (List.getElem?_eq_some_iff.mp hj').1
    rw [List.getElem?_append_left (hlen ▸ hk)] at hj
    exact h.next k j j' hj hj'
  · intro hhigh
    rw [show prev x (b + 1) = x b from rfl, hx] at hhigh
    cases hhigh
  · intro _
    refine ⟨_, b, hfall, by rw [hrise, hlen], ?_⟩
    intro i hbi hib
    omega

theorem Paired.after_rise (h : Paired x a b) (hab : a ≤ b) (hprev : prev x b = false) (hx : x b = true) :
    Paired x a (b + 1) := by
  obtain ⟨falls, j₀, hfalls, hlen, hopen⟩ := h.low hprev
  have hfall : samplesIn (fall x) a (b + 1) = falls ++ [j₀] :=
    (samplesIn_succ_of_false hab (by rw [fall, hprev]; rfl)).trans hfalls
  have hrise : samplesIn (rise x) a (b + 1) = samplesIn (rise x) a b ++ [b] :=
    samplesIn_succ_of_true hab (by rw [rise, hprev, hx]; rfl)
  have hj₀ : j₀ ∈ samplesIn (fall x) a b := by
    rw [hfalls]
    exact List.mem_append_right _ (List.mem_singleton_self j₀)
  obtain ⟨-, hj₀b, hj₀fall⟩ := mem_samplesIn.mp hj₀
  refine ⟨?_, ?_, ?_⟩
  · rw [hfall, hrise]
    intro k j j' hj hj'
    by_cases hk : k < (samplesIn (rise x) a b).length
    · rw [List.getElem?_append_left hk] at hj'
      exact h.next k j j' (hfalls ▸ hj) hj'
    · -- the new rise is matched with the fall that was open
      have hk' : k = falls.length := by
        have hlt := (List.getElem?_eq_some_iff.mp hj).1
        rw [List.length_append, List.length_singleton] at hlt
        omega
      rw [hk', List.getElem?_concat_length, Option.some.injEq] at hj
      rw [hk', hlen, List.getElem?_concat_length, Option.some.injEq] at hj'
      subst hj hj'
      exact ⟨hj₀b, hj₀fall, by rw [rise, hprev, hx]; rfl, hopen⟩
  · intro _
    rw [hfall, hrise, List.length_append, List.length_append, hlen]
    rfl
  · intro hlow
    rw [show prev x (b + 1) = x b from rfl, hx] at hlow
    cases hlow

/-- **Pairing by position.** From a high level on, falls and rises are matched within their periods. -/
theorem Paired.of_high (ha : prev x a = true) (hab : a ≤ b) : Paired x a b := by
  induction b, hab using Nat.le_induction with
  | base =>
    have hempty : ∀ p : ℕ → Bool, samplesIn p a a = [] := by
      intro p
      rw [samplesIn, Nat.sub_self]
      rfl
    refine ⟨?_, ?_, ?_⟩
    · intro k j j' hj
      rw [hempty] at hj
      cases hj
    · intro _
      rw [hempty, hempty]
    · intro hlow
      rw [ha] at hlow
      cases hlow
  | succ b hab ih =>
    cases hprev : prev x b <;> cases hx : x b
    · exact ih.after_still hab (hx.trans hprev.symm)
    · exact ih.after_rise hab hprev hx
    · exact ih.after_fall hab hprev hx
    · exact ih.after_still hab (hx.trans hprev.symm)

theorem length_samplesIn_fall (x : ℕ → Bool) (hab : a ≤ b) :
    (samplesIn (fall x) a b).length + (if prev x b then 1 else 0) =
      (samplesIn (rise x) a b).length + if prev x a then 1 else 0 := by
  induction b, hab using Nat.le_induction with
  | base => simp [samplesIn]
  | succ b hab ih =>
    rw [samplesIn_succ _ hab, samplesIn_succ _ hab, List.length_append, List.length_append]
    change _ + (if x b then 1 else 0) = _
    cases hprev : prev x b <;> cases hx : x b <;> simp [fall, rise, hprev, hx] at ih ⊢ <;> omega

/-! ### From a low level on -/

theorem exists_rise {j : ℕ} (ha : prev x a = false) (haj : a ≤ j) (hj : prev x j = true) :
    ∃ r, a ≤ r ∧ r < j ∧ rise x r = true := by
  induction j, haj using Nat.le_induction with
  | base =>
    rw [ha] at hj
    cases hj
  | succ j haj ih =>
    cases hprev : prev x j with
    | true =>
      obtain ⟨r, har, hrj, hr⟩ := ih hprev
      exact ⟨r, har, by omega, hr⟩
    | false => exact ⟨j, haj, by omega, by rw [rise, hprev, show x j = true from hj]; rfl⟩

theorem samplesIn_zero_le {p : ℕ → Bool} {i j : ℕ} (hj : (samplesIn p a b)[0]? = some j)
    (hi : i ∈ samplesIn p a b) : j ≤ i := by
  have hsorted : (samplesIn p a b).Pairwise (· < ·) := List.Pairwise.filter p (List.pairwise_lt_range' 1)
  cases hlist : samplesIn p a b with
  | nil =>
    rw [hlist] at hj
    cases hj
  | cons j₀ rest =>
    rw [hlist] at hj hi hsorted
    cases hj
    rcases List.mem_cons.mp hi with rfl | hmem
    · exact le_rfl
    · exact Nat.le_of_lt (List.rel_of_pairwise_cons hsorted hmem)

theorem exists_samplesIn_zero {p : ℕ → Bool} {i : ℕ} (hi : i ∈ samplesIn p a b) :
    ∃ j, (samplesIn p a b)[0]? = some j ∧ j ∈ samplesIn p a b := by
  obtain ⟨j, rest, hlist⟩ := List.exists_cons_of_ne_nil (List.ne_nil_of_mem hi)
  exact ⟨j, by rw [hlist]; rfl, by rw [hlist]; exact List.mem_cons_self⟩

/-- **From a low level on** the first rise precedes the first fall. -/
theorem exists_rise_lt_fall {j : ℕ} (ha : prev x a = false) (haj : a ≤ j) (hj : fall x j = true) :
    ∃ j₀ r₀, (samplesIn (fall x) a (j + 1))[0]? = some j₀ ∧
      (samplesIn (rise x) a (j + 1))[0]? = some r₀ ∧ r₀ < j₀ := by
  obtain ⟨j₀, hj₀, hmem⟩ := exists_samplesIn_zero (mem_samplesIn.mpr ⟨haj, Nat.lt_succ_self j, hj⟩)
  obtain ⟨haj₀, hj₀j, hfall⟩ := mem_samplesIn.mp hmem
  rw [fall, Bool.and_eq_true] at hfall
  obtain ⟨r, har, hrj₀, hr⟩ := exists_rise ha haj₀ hfall.1
  have hrmem : r ∈ samplesIn (rise x) a (j + 1) := mem_samplesIn.mpr ⟨har, by omega, hr⟩
  obtain ⟨r₀, hr₀, -⟩ := exists_samplesIn_zero hrmem
  have hle := samplesIn_zero_le hr₀ hrmem
  exact ⟨j₀, r₀, hj₀, hr₀, by omega⟩

end FpgaLabor.ShiftRegister
