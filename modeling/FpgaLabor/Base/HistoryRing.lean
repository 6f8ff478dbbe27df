import Mathlib.Logic.Function.Basic
import Mathlib.Data.BitVec

/-!
# A circular buffer as a window on an unbounded history

`ago d xs i` is the item `i` places before the end of the history `xs`, `d` where there is none yet.
A buffer of `2 ^ w` slots with a `w`-bit write index holds the last `2 ^ w` items (`Holds`), and a
write at the index keeps it so, however often the index has wrapped (`Holds.write`).
-/

namespace FpgaLabor.HistoryRing

variable {α : Type*} {w : ℕ}

/-- The item `i` places before the last one of `xs`. -/
def ago (d : α) (xs : List α) (i : ℕ) : α := (xs.reverse[i]?).getD d

@[simp] theorem ago_nil (d : α) (i : ℕ) : ago d [] i = d := by simp [ago]

@[simp] theorem ago_concat_zero (d : α) (xs : List α) (x : α) : ago d (xs ++ [x]) 0 = x := by
  simp [ago]

@[simp] theorem ago_concat_succ (d : α) (xs : List α) (x : α) (i : ℕ) :
    ago d (xs ++ [x]) (i + 1) = ago d xs i := by
  simp [ago]

theorem ago_take (d : α) (xs : List α) (n i : ℕ) (hn : n < xs.length) :
    ago d (xs.take (n + 1)) i = if i ≤ n then xs[n - i]?.getD d else d := by
  have hlen : (xs.take (n + 1)).length = n + 1 := by rw [List.length_take]; omega
  unfold ago
  by_cases hi : i ≤ n
  · rw [if_pos hi, List.getElem?_reverse (by omega), hlen, List.getElem?_take_of_lt (by omega)]
    congr 2
  · rw [if_neg hi, List.getElem?_eq_none (by rw [List.length_reverse, hlen]; omega)]
    rfl

/-- `buf` holds the last `2 ^ w` items of `xs`, the newest one just before the write index `next`. -/
def Holds (d : α) (xs : List α) (next : BitVec w) (buf : BitVec w → α) : Prop :=
  ∀ i < 2 ^ w, buf (next - 1 - BitVec.ofNat w i) = ago d xs i

theorem holds_nil (d : α) (next : BitVec w) : Holds d [] next (fun _ => d) := by
  intro i _
  rw [ago_nil]

theorem sub_ofNat_ne_self {idx : BitVec w} {i : ℕ} (h0 : 0 < i) (hi : i < 2 ^ w) :
    idx - BitVec.ofNat w i ≠ idx := by
  intro h
  have hzero : BitVec.ofNat w i = 0#w := sub_eq_self.mp h
  have hmod := congrArg BitVec.toNat hzero
  rw [BitVec.toNat_ofNat, BitVec.toNat_ofNat, Nat.mod_eq_of_lt hi, Nat.zero_mod] at hmod
  omega

theorem sub_ofNat_succ (idx : BitVec w) (i : ℕ) :
    idx - BitVec.ofNat w (i + 1) = idx - 1 - BitVec.ofNat w i := by
  rw [BitVec.ofNat_add, BitVec.add_comm]
  exact sub_add_eq_sub_sub _ _ _

theorem Holds.read {d : α} {xs : List α} {idx : BitVec w} {buf : BitVec w → α}
    (h : Holds d xs idx buf) (x : α) {i : ℕ} (hi : i < 2 ^ w) :
    Function.update buf idx x (idx - BitVec.ofNat w i) = ago d (xs ++ [x]) i := by
  cases i with
  | zero =>
    rw [ago_concat_zero, BitVec.sub_zero, Function.update_self]
  | succ i =>
    rw [ago_concat_succ, Function.update_of_ne (sub_ofNat_ne_self (Nat.succ_pos i) hi),
      sub_ofNat_succ]
    exact h i (by omega)

theorem Holds.write {d : α} {xs : List α} {idx : BitVec w} {buf : BitVec w → α}
    (h : Holds d xs idx buf) (x : α) :
    Holds d (xs ++ [x]) (idx + 1) (Function.update buf idx x) := by
  intro i hi
  rw [BitVec.add_sub_cancel]
  exact h.read x hi

end FpgaLabor.HistoryRing
