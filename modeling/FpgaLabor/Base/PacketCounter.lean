import FpgaLabor.Base.Mealy
import Mathlib.Logic.Function.Iterate
import Mathlib.Algebra.Order.Ring.Nat

/-!
# A wrapping counter that cuts a stream into packets

A `w`-bit counter is bumped once per beat, the beat that brings it to `limit` is the last one of
its packet and clears it. From the value `cnt` the first last beat is beat number `gap limit cnt`,
and from then on every `period limit` beats one is last (`hit_iterate_iff`). `gap` is at most
`limit` exactly when the counter has not reached the limit yet: the comparison is an equality, so
a counter at or past the limit first runs around through `2 ^ w`.

`Counts` says that a function with static variables numbers its beats with such a counter;
`Counts.run` is the same for whole runs, and `safeFraming_iff` decides when its stream is fit for
transfers of `limit` beats.
-/

namespace FpgaLabor.PacketCounter

variable {w : ℕ}

/-- The beat that is counted next is the last one of its packet. -/
def hit (limit cnt : BitVec w) : Bool := cnt + 1 == limit

/-- The counter after the next beat. -/
def bump (limit cnt : BitVec w) : BitVec w := if hit limit cnt then 0 else cnt + 1

theorem ite_hit (limit cnt : BitVec w) : (if hit limit cnt then 1 else cnt + 2) = bump limit cnt + 1 := by
  unfold bump
  split_ifs <;> grind

/-- The number of beats of a packet that starts with a cleared counter. -/
def period (limit : BitVec w) : ℕ := if limit = 0 then 2 ^ w else limit.toNat

/-- The number of beats up to and including the next last one. -/
def gap (limit cnt : BitVec w) : ℕ :=
  if cnt.toNat < limit.toNat then limit.toNat - cnt.toNat else 2 ^ w - cnt.toNat + limit.toNat

/-- The flags of `n` beats counted from `cnt`. -/
def flags (limit cnt : BitVec w) (n : ℕ) : List Bool :=
  (List.range n).map fun k => hit limit ((bump limit)^[k] cnt)

theorem period_of_ne_zero {limit : BitVec w} (h : limit ≠ 0) : period limit = limit.toNat :=
  if_neg h

theorem gap_pos (limit cnt : BitVec w) : 0 < gap limit cnt := by
  have := cnt.isLt
  unfold gap
  split_ifs <;> omega

theorem gap_zero (limit : BitVec w) : gap limit 0 = period limit := by
  unfold gap period
  by_cases h : limit = 0
  · subst h; simp
  · have hpos : 0 < limit.toNat := by
      apply Nat.pos_of_ne_zero
      intro h0
      exact h (BitVec.eq_of_toNat_eq (by simpa using h0))
    rw [if_pos (by simpa using hpos), if_neg h]
    simp

theorem toNat_add_one (cnt : BitVec w) :
    (cnt + 1).toNat = if cnt.toNat + 1 = 2 ^ w then 0 else cnt.toNat + 1 := by
  have hlt := cnt.isLt
  rw [BitVec.toNat_add, show (1 : BitVec w) = 1#w from rfl, BitVec.toNat_ofNat, Nat.add_mod_mod]
  split_ifs with h
  · rw [h, Nat.mod_self]
  · exact Nat.mod_eq_of_lt (by omega)

theorem hit_iff_gap (limit cnt : BitVec w) : hit limit cnt = true ↔ gap limit cnt = 1 := by
  have hc := cnt.isLt
  have hl := limit.isLt
  rw [hit, beq_iff_eq, ← BitVec.toNat_inj, toNat_add_one]
  unfold gap
  split_ifs <;> omega

theorem gap_bump_of_hit {limit cnt : BitVec w} (h : hit limit cnt = true) :
    gap limit (bump limit cnt) = period limit := by
  rw [bump, if_pos h, gap_zero]

theorem gap_bump_of_not_hit {limit cnt : BitVec w} (h : ¬ hit limit cnt = true) :
    gap limit (bump limit cnt) + 1 = gap limit cnt := by
  have hc := cnt.isLt
  have hl := limit.isLt
  have hbump : bump limit cnt = cnt + 1 := if_neg h
  rw [hit, beq_iff_eq, ← BitVec.toNat_inj, toNat_add_one] at h
  rw [hbump]
  unfold gap
  rw [toNat_add_one]
  split_ifs at h ⊢ <;> omega

/-- **The whole run of one counter**: beat `k` (from `0`) is last iff it is beat number
`gap + j * period` for some `j`. -/
theorem hit_iterate_iff (limit cnt : BitVec w) (k : ℕ) :
    hit limit ((bump limit)^[k] cnt) = true ↔
      gap limit cnt ≤ k + 1 ∧ period limit ∣ k + 1 - gap limit cnt := by
  induction k generalizing cnt with
  | zero =>
    have hpos := gap_pos limit cnt
    rw [Function.iterate_zero, id, hit_iff_gap]
    refine ⟨?_, ?_⟩
    · intro h
      exact ⟨by omega, by simp [h]⟩
    · rintro ⟨h, _⟩
      omega
  | succ k ih =>
    have hpos := gap_pos limit cnt
    rw [Function.iterate_succ_apply, ih]
    by_cases h : hit limit cnt = true
    · have hone := (hit_iff_gap limit cnt).mp h
      rw [gap_bump_of_hit h, hone]
      refine ⟨?_, ?_⟩
      · rintro ⟨hle, hdvd⟩
        refine ⟨by omega, ?_⟩
        have := Nat.dvd_add hdvd (dvd_refl (period limit))
        rwa [Nat.sub_add_cancel hle] at this
      · rintro ⟨_, hdvd⟩
        have hle : period limit ≤ k + 1 := Nat.le_of_dvd (by omega) hdvd
        exact ⟨hle, Nat.dvd_sub hdvd (dvd_refl _)⟩
    · have hgap := gap_bump_of_not_hit h
      rw [← hgap, show k + 1 + 1 - (gap limit (bump limit cnt) + 1) =
        k + 1 - gap limit (bump limit cnt) by omega]
      refine ⟨?_, ?_⟩
      · rintro ⟨hle, hdvd⟩
        exact ⟨by omega, hdvd⟩
      · rintro ⟨hle, hdvd⟩
        exact ⟨by omega, hdvd⟩

theorem bump_zero_limit (cnt : BitVec w) : bump 0 cnt = cnt + 1 := by
  unfold bump
  split_ifs with h
  · exact (beq_iff_eq.mp h).symm
  · rfl

theorem iterate_bump_zero_limit (m : ℕ) : (bump (0 : BitVec w))^[m] 0 = BitVec.ofNat w m := by
  induction m with
  | zero => rfl
  | succ m ih =>
    rw [Function.iterate_succ_apply', ih, bump_zero_limit, BitVec.ofNat_add]
    rfl

theorem gap_le_iff (limit cnt : BitVec w) : gap limit cnt ≤ limit.toNat ↔ cnt.toNat < limit.toNat := by
  have := cnt.isLt
  unfold gap
  split_ifs <;> omega

theorem flags_getElem? (limit cnt : BitVec w) {n k : ℕ} (hk : k < n) :
    (flags limit cnt n)[k]? = some (hit limit ((bump limit)^[k] cnt)) := by
  rw [flags, List.getElem?_map, List.getElem?_range hk]
  rfl

theorem flags_succ (limit cnt : BitVec w) (n : ℕ) :
    flags limit cnt (n + 1) = hit limit cnt :: flags limit (bump limit cnt) n := by
  simp only [flags, List.range_succ_eq_map, List.map_cons, List.map_map]
  rfl

theorem flags_add (limit cnt : BitVec w) (m n : ℕ) :
    flags limit cnt (m + n) = flags limit cnt m ++ flags limit ((bump limit)^[m] cnt) n := by
  induction m generalizing cnt with
  | zero => rw [Nat.zero_add]; rfl
  | succ m ih =>
    rw [Nat.succ_add, flags_succ, flags_succ, ih, Function.iterate_succ_apply]
    rfl

theorem iterate_bump_of_lt {limit : BitVec w} {n : ℕ} (h : n < limit.toNat) :
    (bump limit)^[n] 0 = BitVec.ofNat w n := by
  induction n with
  | zero => rfl
  | succ n ih =>
    have hnot : ¬ hit limit (BitVec.ofNat w n) = true := by
      rw [hit_iff_gap, gap, BitVec.toNat_ofNat, Nat.mod_eq_of_lt (by omega)]
      split_ifs <;> omega
    rw [Function.iterate_succ_apply', ih (by omega), bump, if_neg hnot, BitVec.ofNat_add]
    rfl

theorem flags_set_limit {limit : BitVec w} {n : ℕ} (h : n < limit.toNat) (m : ℕ) :
    flags (0 : BitVec w) 0 n ++ flags limit (BitVec.ofNat w n) m = flags limit 0 (n + m) := by
  have hlt := limit.isLt
  have hzero : (0 : BitVec w).toNat = 0 := by simp
  have hbelow : flags (0 : BitVec w) 0 n = flags limit 0 n := by
    unfold flags
    apply List.map_congr_left
    intro k hk
    have hk' := List.mem_range.mp hk
    rw [iterate_bump_of_lt (by omega : k < limit.toNat), iterate_bump_zero_limit, Bool.eq_iff_iff, hit_iff_gap,
      hit_iff_gap, gap, gap, BitVec.toNat_ofNat, Nat.mod_eq_of_lt (by omega), hzero]
    split_ifs <;> omega
  rw [hbelow, flags_add, iterate_bump_of_lt h]

/-! ### Streams numbered by such a counter -/

section Stream

variable {σ ι β : Type*} (step : σ → ι → σ × List β) (cnt : σ → BitVec w) (last : β → Bool)

/-- Under the inputs that satisfy `ok`, each step of the function counts the beats it emits with the
counter `cnt` and flags them with `last`. -/
def Counts (limit : BitVec w) (ok : ι → Prop) : Prop :=
  ∀ s i, ok i →
    (step s i).2.map last = flags limit (cnt s) (step s i).2.length ∧
      cnt (step s i).1 = (bump limit)^[(step s i).2.length] (cnt s)

variable {step cnt last}

theorem Counts.run {limit : BitVec w} {ok : ι → Prop} (h : Counts step cnt last limit ok) (s : σ)
    (is : List ι) (hok : ∀ i ∈ is, ok i) :
    (Mealy.outputs step s is).flatten.map last =
        flags limit (cnt s) (Mealy.outputs step s is).flatten.length ∧
      cnt (Mealy.runState step s is) =
        (bump limit)^[(Mealy.outputs step s is).flatten.length] (cnt s) := by
  induction is generalizing s with
  | nil => exact ⟨rfl, rfl⟩
  | cons i is ih =>
    obtain ⟨hflags, hcnt⟩ := h s i (hok i (by simp))
    obtain ⟨ihflags, ihcnt⟩ := ih (step s i).1 fun j hj => hok j (by simp [hj])
    rw [Mealy.outputs_cons, List.flatten_cons, List.map_append, List.length_append, flags_add,
      Mealy.runState_cons, hflags, ihflags, ihcnt, hcnt]
    exact ⟨rfl, by rw [Nat.add_comm, Function.iterate_add_apply]⟩

/-- **A limit set in the course of a run.** If the calls `is` run without a limit and emit fewer beats than the
limit that the calls `js` run under, the beats of both are counted by one counter. -/
theorem Counts.run_set_limit {limit : BitVec w} {ok ok' : ι → Prop} (hfree : Counts step cnt last 0 ok)
    (hlimit : Counts step cnt last limit ok') {s : σ} (hs : cnt s = 0) {is js : List ι} (his : ∀ i ∈ is, ok i)
    (hjs : ∀ j ∈ js, ok' j) (hlt : (Mealy.outputs step s is).flatten.length < limit.toNat) :
    (Mealy.outputs step s (is ++ js)).flatten.map last =
      flags limit 0 (Mealy.outputs step s (is ++ js)).flatten.length := by
  obtain ⟨hflags, hcnt⟩ := hfree.run s is his
  have hrest := (hlimit.run (Mealy.runState step s is) js hjs).1
  rw [hs] at hflags hcnt
  rw [hcnt, iterate_bump_zero_limit] at hrest
  rw [Mealy.outputs_append, List.flatten_append, List.map_append, hflags, hrest, flags_set_limit hlt,
    List.length_append]

theorem last_getElem_iff {limit c : BitVec w} {bs : List β}
    (h : bs.map last = flags limit c bs.length) (k : ℕ) (hk : k < bs.length) :
    last bs[k] = true ↔ gap limit c ≤ k + 1 ∧ period limit ∣ k + 1 - gap limit c := by
  have hget : (bs.map last)[k]? = some (hit limit ((bump limit)^[k] c)) := by
    rw [h, flags_getElem? _ _ hk]
  rw [List.getElem?_map, List.getElem?_eq_getElem hk, Option.map_some] at hget
  rw [Option.some.inj hget]
  exact hit_iterate_iff limit c k

theorem last_getElem_iff_of_zero {limit : BitVec w} {bs : List β} (h : bs.map last = flags limit 0 bs.length) {k : ℕ}
    (hk : k < bs.length) : last bs[k] = true ↔ period limit ∣ k + 1 := by
  rw [last_getElem_iff h k hk, gap_zero]
  refine ⟨?_, ?_⟩
  · rintro ⟨hle, hdvd⟩
    exact (Nat.dvd_sub_iff_left hle (dvd_refl _)).mp hdvd
  · intro hdvd
    exact ⟨Nat.le_of_dvd (Nat.succ_pos k) hdvd, Nat.dvd_sub hdvd (dvd_refl _)⟩

/-- A stream fit for transfers of `N` beats: as soon as `N` beats have come one of them was last,
and the next last beat after a last beat is exactly `N` beats later. -/
structure SafeFraming (last : β → Bool) (N : ℕ) (bs : List β) : Prop where
  first : N ≤ bs.length → ∃ k, ∃ hk : k < bs.length, k < N ∧ last bs[k] = true
  next : ∀ k j (hk : k < bs.length) (hj : j < bs.length), last bs[k] = true → k < j → j ≤ k + N →
    (last bs[j] = true ↔ j = k + N)

theorem next_last {limit c : BitVec w} (hlimit : limit ≠ 0) {bs : List β}
    (h : bs.map last = flags limit c bs.length) (k j : ℕ) (hk : k < bs.length) (hj : j < bs.length)
    (hlast : last bs[k] = true) (hkj : k < j) (hjk : j ≤ k + limit.toNat) :
    last bs[j] = true ↔ j = k + limit.toNat := by
  obtain ⟨hle, hdvd⟩ := (last_getElem_iff h k hk).mp hlast
  rw [last_getElem_iff h j hj, period_of_ne_zero hlimit] at *
  rw [show j + 1 - gap limit c = k + 1 - gap limit c + (j - k) by omega, Nat.dvd_add_right hdvd]
  refine ⟨?_, ?_⟩
  · rintro ⟨_, hdvd'⟩
    have := Nat.le_of_dvd (by omega) hdvd'
    omega
  · rintro rfl
    exact ⟨by omega, by rw [Nat.add_sub_cancel_left]⟩

/-- **When a counted stream is fit for transfers of `limit` beats**: the counter is below the limit
at the start of the stream, or the stream is shorter than one transfer. -/
theorem safeFraming_iff {limit c : BitVec w} (hlimit : limit ≠ 0) {bs : List β}
    (h : bs.map last = flags limit c bs.length) :
    SafeFraming last limit.toNat bs ↔ c.toNat < limit.toNat ∨ bs.length < limit.toNat := by
  refine ⟨?_, ?_⟩
  · intro hsafe
    by_contra hnot
    push Not at hnot
    obtain ⟨k, hk, hkN, hlast⟩ := hsafe.first hnot.2
    have hgap := ((last_getElem_iff h k hk).mp hlast).1
    have := (gap_le_iff limit c).not.mpr (by omega)
    omega
  · intro hor
    refine ⟨fun hlen => ?_, next_last hlimit h⟩
    have hgap : gap limit c ≤ limit.toNat := (gap_le_iff limit c).mpr (by omega)
    have hpos := gap_pos limit c
    refine ⟨gap limit c - 1, by omega, by omega, ?_⟩
    rw [last_getElem_iff h]
    exact ⟨by omega, by rw [Nat.sub_add_cancel hpos, Nat.sub_self]; exact Nat.dvd_zero _⟩

/-- **When a counter may be given a new limit**: all runs under the limit from a state are fit for
transfers of `limit` beats exactly when the counter of that state is below it. -/
theorem Counts.safe_iff {limit : BitVec w} {ok : ι → Prop} (h : Counts step cnt last limit ok)
    (hlimit : limit ≠ 0) (s : σ)
    (hlong : ∃ is, (∀ i ∈ is, ok i) ∧ limit.toNat ≤ (Mealy.outputs step s is).flatten.length) :
    (∀ is, (∀ i ∈ is, ok i) → SafeFraming last limit.toNat (Mealy.outputs step s is).flatten) ↔
      (cnt s).toNat < limit.toNat := by
  refine ⟨?_, ?_⟩
  · intro hsafe
    obtain ⟨is, hok, hlen⟩ := hlong
    rcases (safeFraming_iff hlimit (h.run s is hok).1).mp (hsafe is hok) with hlt | hshort
    · exact hlt
    · omega
  · intro hlt is hok
    exact (safeFraming_iff hlimit (h.run s is hok).1).mpr (.inl hlt)

end Stream

end FpgaLabor.PacketCounter
