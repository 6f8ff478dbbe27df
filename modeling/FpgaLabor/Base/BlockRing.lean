import Mathlib.Algebra.Order.Floor.Div
import Mathlib.Data.Nat.ModEq
import Mathlib.Logic.Function.Basic

/-!
# A ring of memory blocks filled by a writer

`n` blocks of `t` bytes from address `base` on, used in turn: block `k` of the sequence is at `slot k`.
The pointer arithmetic that steps through them (`advance`) compares the next address with the end of
the ring; it visits as many blocks as it takes to cover the ring (`stops`, `advance_slot_stops`), which
are inside it just if `t` divides its size (`slot_bounds_iff`).

`RingHolds` is the contents of such a ring whose writer fills block `k` with item `k`: while one item is
being written, the last `n - 1` completed ones are all in place (`RingHolds.store`,
`RingHolds.complete`).
-/

namespace FpgaLabor.BlockRing

/-- The address of the `k`-th block used. -/
def slot (base n t k : ℕ) : ℕ := base + k % n * t

/-- The next block's address, back to `base` from the end of the ring. -/
def advance (base size t p : ℕ) : ℕ := if base + size ≤ p + t then base else p + t

/-- The blocks of `t` bytes at `p` and at `q` have no byte in common. -/
def Apart (t p q : ℕ) : Prop := p + t ≤ q ∨ q + t ≤ p

theorem Apart.mono {t t' p q : ℕ} (h : Apart t p q) (hle : t' ≤ t) : Apart t' p q :=
  h.imp (fun h => (Nat.add_le_add_left hle p).trans h) fun h => (Nat.add_le_add_left hle q).trans h

section Addresses

variable {base n t : ℕ}

@[simp] theorem slot_zero : slot base n t 0 = base := by simp [slot]

theorem slot_succ (hn : 0 < n) (k : ℕ) :
    slot base n t (k + 1) = if k % n + 1 = n then base else slot base n t k + t := by
  have hk : k % n < n := Nat.mod_lt k hn
  obtain ⟨m, rfl⟩ : ∃ m, n = m + 1 := Nat.exists_eq_add_of_le' hn
  split_ifs with hlast
  · rw [slot, Nat.succ_mod_succ_eq_zero_iff.mpr (Nat.succ.inj hlast), Nat.zero_mul, Nat.add_zero]
  · rw [slot, slot, Nat.add_mod, Nat.mod_eq_of_lt (show 1 < m + 1 by omega),
      Nat.mod_eq_of_lt (show k % (m + 1) + 1 < m + 1 by omega), Nat.succ_mul, Nat.add_assoc]

theorem slot_eq_slot_iff (ht : 0 < t) {i j : ℕ} : slot base n t i = slot base n t j ↔ i % n = j % n := by
  rw [slot, slot, Nat.add_left_cancel_iff, Nat.mul_right_cancel_iff ht]

/-! ### The blocks visited -/

/-- The number of blocks the pointer visits before it is back at `base`. -/
def stops (size t : ℕ) : ℕ := max 1 (size ⌈/⌉ t)

variable {size : ℕ}

theorem stops_pos (size t : ℕ) : 0 < stops size t := Nat.lt_of_lt_of_le Nat.zero_lt_one (le_max_left _ _)

theorem stops_le_iff (ht : 0 < t) {m : ℕ} (hm : 0 < m) : stops size t ≤ m ↔ size ≤ t * m := by
  rw [stops, max_le_iff, ceilDiv_le_iff_le_mul ht]
  exact and_iff_right hm

theorem stops_mul (hn : 0 < n) (ht : 0 < t) : stops (n * t) t = n := by
  rw [stops, ← smul_eq_mul, smul_eq_mul, Nat.mul_comm, ← smul_eq_mul, smul_ceilDiv ht]
  exact max_eq_right hn

theorem stops_eq_div (hdvd : t ∣ size) (hn : 0 < size / t) : stops size t = size / t := by
  have ht : 0 < t := Nat.pos_of_ne_zero fun h => by rw [h, Nat.div_zero] at hn; cases hn
  conv_lhs => rw [← Nat.div_mul_cancel hdvd]
  exact stops_mul hn ht

theorem advance_slot_stops (base size t k : ℕ) :
    advance base size t (slot base (stops size t) t k) = slot base (stops size t) t (k + 1) := by
  have hr : k % stops size t < stops size t := Nat.mod_lt k (stops_pos size t)
  rw [slot_succ (stops_pos size t), advance]
  rcases Nat.eq_zero_or_pos t with rfl | ht
  · -- blocks of no bytes: the pointer stays at `base`
    rw [slot, Nat.mul_zero, Nat.add_zero, Nat.add_zero, ite_self, ite_self]
  · -- the next address is past the ring just if the blocks up to this one cover it
    have hlast : k % stops size t + 1 = stops size t ↔ size ≤ k % stops size t * t + t := by
      rw [← Nat.succ_mul, Nat.mul_comm, ← stops_le_iff ht (Nat.succ_pos _)]
      omega
    refine if_congr ?_ rfl rfl
    rw [hlast, slot]
    omega

theorem slot_bounds_iff (base : ℕ) (ht : 0 < t) (hle : t ≤ size) :
    (∀ k, slot base (stops size t) t k + t ≤ base + size) ↔ t ∣ size := by
  have hcover : size ≤ t * stops size t := (stops_le_iff ht (stops_pos size t)).mp (Nat.le_refl _)
  refine ⟨?_, ?_⟩
  · -- the last block ends at `stops size t * t`
    intro hall
    have hlast := hall (stops size t - 1)
    rw [slot, Nat.mod_eq_of_lt (Nat.sub_lt (stops_pos size t) Nat.one_pos), Nat.add_assoc, ← Nat.succ_mul,
      Nat.succ_eq_add_one, Nat.sub_add_cancel (stops_pos size t), Nat.mul_comm] at hlast
    exact ⟨stops size t, by omega⟩
  · intro hdvd k
    have hn : 0 < size / t := Nat.div_pos hle ht
    have hend : (k % (size / t) + 1) * t ≤ size / t * t := Nat.mul_le_mul_right t (Nat.mod_lt k hn)
    rw [Nat.div_mul_cancel hdvd, Nat.succ_mul] at hend
    rw [stops_eq_div hdvd hn, slot, Nat.add_assoc]
    exact Nat.add_le_add_left hend base

theorem slot_stops_add_eq_iff (base size t k m : ℕ) :
    slot base (stops size t) t (k + m) = slot base (stops size t) t k ↔ stops size t ∣ m := by
  rcases Nat.eq_zero_or_pos t with rfl | ht
  · have hone : stops size 0 = 1 := by rw [stops, ceilDiv_zero]; rfl
    rw [hone, slot, slot, Nat.mul_zero, Nat.mul_zero]
    exact ⟨fun _ => one_dvd m, fun _ => rfl⟩
  · rw [slot_eq_slot_iff ht]
    exact Nat.add_modEq_left_iff

theorem existsUnique_slot (base : ℕ) (ht : 0 < t) (lap : ℕ) {i : ℕ} (hi : i < n) :
    ∃! k, (lap * n ≤ k ∧ k < (lap + 1) * n) ∧ slot base n t k = base + i * t := by
  have hlap : (lap + 1) * n = lap * n + n := Nat.succ_mul lap n
  refine ⟨lap * n + i, ⟨⟨Nat.le_add_right _ _, by omega⟩, ?_⟩, ?_⟩
  · rw [slot, Nat.mul_add_mod_of_lt hi]
  · rintro k ⟨⟨hle, hlt⟩, hk⟩
    obtain ⟨j, rfl⟩ := Nat.exists_eq_add_of_le hle
    rw [slot, Nat.mul_add_mod_of_lt (by omega), Nat.add_left_cancel_iff, Nat.mul_right_cancel_iff ht] at hk
    rw [hk]

/-- A writer that fills one block of `len` words after the other, with `lo` to `hi` words written while it
is at most one block past block `k + 1`, is back at block `k` after a lap. -/
theorem exists_slot_eq_iff (base size t hi : ℕ) {len k lo : ℕ} (hlen : 0 < len)
    (hlo : len * (k + 1) ≤ lo) (hlo' : lo ≤ len * (k + 2)) :
    (∃ i, lo ≤ i ∧ i < hi ∧
      slot base (stops size t) t (i / len) = slot base (stops size t) t k) ↔
      max lo (len * (k + stops size t)) < hi := by
  have hdvd : ∀ m, slot base (stops size t) t (k + m) = slot base (stops size t) t k ↔
      stops size t ∣ m := slot_stops_add_eq_iff base size t k
  have hdiv : ∀ x y, x ≤ y / len ↔ len * x ≤ y := by
    intro x y
    rw [Nat.le_div_iff_mul_le hlen, Nat.mul_comm]
  refine ⟨?_, ?_⟩
  · rintro ⟨i, hle, hlt, heq⟩
    obtain ⟨m, hm⟩ : ∃ m, i / len = k + 1 + m :=
      Nat.exists_eq_add_of_le ((hdiv _ _).mpr (hlo.trans hle))
    rw [hm, Nat.add_assoc, hdvd] at heq
    have hlap := Nat.le_of_dvd (Nat.add_pos_left Nat.one_pos m) heq
    have hi : k + stops size t ≤ i / len := by omega
    exact (max_le hle ((hdiv _ _).mp hi)).trans_lt hlt
  · intro hlt
    refine ⟨_, le_max_left _ _, hlt, ?_⟩
    rcases Nat.eq_or_lt_of_le (stops_pos size t) with hone | htwo
    · -- a ring of one block
      obtain ⟨m, hm⟩ : ∃ m, max lo (len * (k + stops size t)) / len = k + m :=
        Nat.exists_eq_add_of_le ((hdiv _ _).mpr
          ((Nat.mul_le_mul_left len (Nat.le_add_right k _)).trans (le_max_right _ _)))
      rw [hm, hdvd, ← hone]
      exact one_dvd m
    · have hmax : max lo (len * (k + stops size t)) = len * (k + stops size t) :=
        max_eq_right (hlo'.trans (Nat.mul_le_mul_left len (Nat.add_le_add_left htwo k)))
      rw [hmax, Nat.mul_div_cancel_left _ hlen, hdvd]

theorem mod_ne_of_lt_add {i j : ℕ} (hij : i < j) (hji : j < i + n) : i % n ≠ j % n := by
  intro hmod
  have hdvd : n ∣ j - i := (Nat.modEq_iff_dvd' hij.le).mp hmod
  have hle := Nat.le_of_dvd (by omega) hdvd
  omega

theorem slot_apart {i j : ℕ} (hij : i < j) (hji : j < i + n) :
    Apart t (slot base n t i) (slot base n t j) := by
  have hstep : ∀ {a b : ℕ}, a < b → a * t + t ≤ b * t := by
    intro a b hab
    rw [← Nat.succ_mul]
    exact Nat.mul_le_mul_right t hab
  rcases Nat.lt_or_gt_of_ne (mod_ne_of_lt_add hij hji) with hlt | hgt
  · have h := hstep hlt
    exact .inl (by rw [slot, slot]; omega)
  · have h := hstep hgt
    exact .inr (by rw [slot, slot]; omega)

/-- Block `k + 1 + m`, `m` further blocks after block `k` was left, is apart from it for fewer than `n - 1`
of them, and the same one for `n - 1`. -/
theorem slot_lifetime (hn : 0 < n) (k m : ℕ) :
    (m < n - 1 → Apart t (slot base n t k) (slot base n t (k + 1 + m))) ∧
      (m = n - 1 → slot base n t (k + 1 + m) = slot base n t k) := by
  refine ⟨?_, ?_⟩
  · intro hm
    exact slot_apart (by omega) (by omega)
  · intro hm
    rw [show k + 1 + m = k + n by omega, slot, slot, Nat.add_mod_right]

end Addresses

/-! ### Contents -/

section Contents

variable {α : Type*}

/-- The `len` words of four bytes from address `p` on. -/
def block (mem : ℕ → α) (len p : ℕ) : List α := (List.range len).map fun i => mem (p + 4 * i)

@[simp] theorem length_block (mem : ℕ → α) (len p : ℕ) : (block mem len p).length = len := by
  simp [block]

variable {mem : ℕ → α} {len p q j : ℕ} {x : α}

theorem block_update_of_apart (hpq : Apart (4 * len) p q) (hj : j < len) :
    block (Function.update mem (q + 4 * j) x) len p = block mem len p := by
  apply List.map_congr_left
  intro i hi
  apply Function.update_of_ne
  rw [List.mem_range] at hi
  rcases hpq with h | h <;> omega

theorem getElem?_block_update (hj : j < len) :
    (block (Function.update mem (p + 4 * j) x) len p)[j]? = some x := by
  simp [block, List.getElem?_range hj]

theorem take_block_update (hj : j < len) :
    (block (Function.update mem (p + 4 * j) x) len p).take (j + 1) = (block mem len p).take j ++ [x] := by
  have htake : ∀ m ≤ len, ∀ mem : ℕ → α,
      (block mem len p).take m = (List.range m).map fun i => mem (p + 4 * i) := by
    intro m hm mem
    rw [block, ← List.map_take, List.take_range, Nat.min_eq_left hm]
  rw [htake _ hj, htake _ hj.le, List.range_succ, List.map_append, List.map_singleton,
    Function.update_self]
  congr 1
  apply List.map_congr_left
  intro i hi
  apply Function.update_of_ne
  rw [List.mem_range] at hi
  omega

/-- A ring of `n` blocks of `t` bytes whose writer has completed the items `done`, of `len` words each, and is
filling the block after them with `filling`. -/
structure RingHolds (mem : ℕ → α) (base n t len : ℕ) (done : List (List α)) (filling : List α) : Prop where
  recent : ∀ i item, done[i]? = some item → done.length < i + n → block mem len (slot base n t i) = item
  written : (block mem len (slot base n t done.length)).take filling.length = filling

variable {base n t : ℕ} {done : List (List α)} {filling : List α}

theorem ringHolds_nil (mem : ℕ → α) (base n t len : ℕ) : RingHolds mem base n t len [] [] where
  recent i item hi := by cases hi
  written := rfl

theorem RingHolds.store (h : RingHolds mem base n t len done filling) (ht : 4 * len ≤ t)
    (hlen : filling.length < len) (x : α) :
    RingHolds (Function.update mem (slot base n t done.length + 4 * filling.length) x)
      base n t len done (filling ++ [x]) where
  recent i item hi hin := by
    have hidone : i < done.length := (List.getElem?_eq_some_iff.mp hi).1
    rw [block_update_of_apart ((slot_apart hidone hin).mono ht) hlen]
    exact h.recent i item hi hin
  written := by
    rw [List.length_append, List.length_singleton, take_block_update hlen, h.written]

theorem RingHolds.complete (h : RingHolds mem base n t len done filling) (hlen : filling.length = len) :
    RingHolds mem base n t len (done ++ [filling]) [] where
  recent i item hi hin := by
    rw [List.length_append, List.length_singleton] at hin
    by_cases hlt : i < done.length
    · rw [List.getElem?_append_left hlt] at hi
      exact h.recent i item hi (by omega)
    · have hi' : i = done.length := by
        have hlt := (List.getElem?_eq_some_iff.mp hi).1
        rw [List.length_append, List.length_singleton] at hlt
        omega
      rw [hi', List.getElem?_concat_length, Option.some.injEq] at hi
      have hfull := h.written
      rw [hlen, List.take_of_length_le (by rw [length_block])] at hfull
      rw [hi', hfull, hi]
  written := rfl

end Contents

end FpgaLabor.BlockRing
