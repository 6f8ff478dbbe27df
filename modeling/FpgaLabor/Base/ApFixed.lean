import Mathlib.Algebra.Order.Ring.Abs
import Mathlib.Algebra.Order.Ring.Int
import Mathlib.Tactic.LinearCombination
import Mathlib.Tactic.Linarith
import Mathlib.Tactic.Ring

/-!
# Signed fixed point with truncation and wrap-around

`ApFixed W I` is the format `ap_fixed<W, I, AP_TRN, AP_WRAP>`: a `W`-bit two's complement register
with `W - I` fractional bits. `assign` is the assignment between two formats (drop fractional bits
by an arithmetic shift, then keep the low `W` bits), `mul` and `add` return the wider formats in
which the exact product and sum fit, and `addAssign` is `+=`: `add` in the wider format, then
`assign` back.

A register is an integer wrapped to its width (`BitVec.ofInt`). Wrapping and then dropping `k`
fractional bits loses nothing as long as the register has `k` bits to spare over the result
(`ofInt_bmod_ediv`), which is why the laws below are all of the form `z.V = BitVec.ofInt W _`.
-/

namespace FpgaLabor

/-- `ap_fixed<W, I, AP_TRN, AP_WRAP>`: the raw register. -/
structure ApFixed (W I : ℕ) where
  V : BitVec W
deriving DecidableEq, Repr

theorem ofInt_bmod_ediv {W p k : ℕ} (h : k + W ≤ p) (z : ℤ) :
    BitVec.ofInt W (z.bmod (2 ^ p) / 2 ^ k) = BitVec.ofInt W (z / 2 ^ k) := by
  obtain ⟨d, rfl⟩ := Nat.exists_eq_add_of_le h
  have hz : z.bmod (2 ^ (k + W + d)) = z + (-(2 ^ d * z.bdiv (2 ^ (k + W + d)))) * 2 ^ W * 2 ^ k := by
    have hdiv := Int.bmod_add_bdiv z (2 ^ (k + W + d))
    push_cast at hdiv
    have hpow : (2 : ℤ) ^ (k + W + d) = 2 ^ k * 2 ^ W * 2 ^ d := by rw [pow_add, pow_add]
    rw [hpow] at hdiv
    linear_combination hdiv
  rw [hz, Int.add_mul_ediv_right _ _ (by positivity)]
  apply BitVec.eq_of_toInt_eq
  rw [BitVec.toInt_ofInt, BitVec.toInt_ofInt]
  have hcast : (2 : ℤ) ^ W = ((2 ^ W : ℕ) : ℤ) := by push_cast; rfl
  rw [hcast, Int.add_mul_bmod_self_right]

theorem extractLsb'_eq_ofInt {W p k : ℕ} (h : k + W ≤ p) (x : BitVec p) :
    x.extractLsb' k W = BitVec.ofInt W (x.toInt / 2 ^ k) := by
  have hshift : x.toInt / 2 ^ k = (x.sshiftRight k).toInt := by
    rw [BitVec.toInt_sshiftRight, Int.shiftRight_eq_div_pow]
    push_cast; rfl
  have hwidth : BitVec.ofInt W (x.sshiftRight k).toInt = (x.sshiftRight k).setWidth W :=
    BitVec.signExtend_eq_setWidth_of_le _ (by omega)
  rw [hshift, hwidth]
  ext i hi
  simp [BitVec.getElem_sshiftRight, show k + i < p by omega, show i < p by omega]

theorem extractLsb'_ofInt {W p k : ℕ} (h : k + W ≤ p) (z : ℤ) :
    (BitVec.ofInt p z).extractLsb' k W = BitVec.ofInt W (z / 2 ^ k) := by
  rw [extractLsb'_eq_ofInt h, BitVec.toInt_ofInt, ofInt_bmod_ediv h]

namespace ApFixed

variable {W I W₂ I₂ : ℕ}

@[ext] theorem ext {x y : ApFixed W I} (h : x.V = y.V) : x = y := by
  cases x; cases y; exact congrArg ApFixed.mk h

/-- The register read as a signed integer, in units of `2 ^ -(W - I)`. -/
def raw (x : ApFixed W I) : ℤ := x.V.toInt

/-- The register that holds an integer, wrapped to `W` bits. -/
def ofRaw (r : ℤ) : ApFixed W I := ⟨BitVec.ofInt W r⟩

instance : Zero (ApFixed W I) := ⟨⟨0⟩⟩

/-- `operator=` from another format. -/
def assign (W I : ℕ) (op : ApFixed W₂ I₂) : ApFixed W I :=
  if W - I < W₂ - I₂ then ofRaw (op.raw >>> (W₂ - I₂ - (W - I)))
  else ofRaw (op.raw <<< (W - I - (W₂ - I₂)))

/-- `operator*`, in the format of the exact product. -/
def mul (x : ApFixed W I) (y : ApFixed W₂ I₂) : ApFixed (W + W₂) (I + I₂) :=
  ofRaw (x.raw * y.raw)

/-- `operator+`, in the format of the exact sum: both operands are assigned to it and added there. -/
def add (x : ApFixed W I) (y : ApFixed W₂ I₂) :
    ApFixed (max (W - I) (W₂ - I₂) + (max I I₂ + 1)) (max I I₂ + 1) :=
  ⟨(assign _ (max I I₂ + 1) x).V + (assign _ (max I I₂ + 1) y).V⟩

/-- `operator+=`. -/
def addAssign (x : ApFixed W I) (y : ApFixed W₂ I₂) : ApFixed W I := assign W I (add x y)

@[simp] theorem raw_zero : (0 : ApFixed W I).raw = 0 := BitVec.toInt_zero

theorem raw_mk (v : BitVec W) : (⟨v⟩ : ApFixed W I).raw = v.toInt := rfl

theorem V_ofRaw (r : ℤ) : (ofRaw r : ApFixed W I).V = BitVec.ofInt W r := rfl

theorem raw_ofRaw (r : ℤ) : (ofRaw r : ApFixed W I).raw = r.bmod (2 ^ W) := BitVec.toInt_ofInt r

theorem raw_ofRaw_of_fits {r : ℤ} (hlo : -2 ^ W ≤ 2 * r) (hhi : 2 * r < 2 ^ W) :
    (ofRaw r : ApFixed W I).raw = r := by
  rw [raw_ofRaw]
  exact Int.bmod_eq_of_le_mul_two (by push_cast; linarith) (by push_cast; linarith)

theorem two_mul_raw_lt (x : ApFixed W I) : 2 * x.raw < 2 ^ W := BitVec.two_mul_toInt_lt

theorem le_two_mul_raw (x : ApFixed W I) : -2 ^ W ≤ 2 * x.raw := BitVec.le_two_mul_toInt

/-! ### Assignment between formats -/

theorem assign_of_lt (h : W - I < W₂ - I₂) (op : ApFixed W₂ I₂) :
    assign W I op = ofRaw (op.raw / 2 ^ (W₂ - I₂ - (W - I))) := by
  rw [assign, if_pos h, Int.shiftRight_eq_div_pow]
  push_cast; rfl

theorem assign_of_le (h : W₂ - I₂ ≤ W - I) (op : ApFixed W₂ I₂) :
    assign W I op = ofRaw (op.raw * 2 ^ (W - I - (W₂ - I₂))) := by
  rw [assign, if_neg (by omega), Int.shiftLeft_eq]

theorem raw_assign_of_le (hF : W₂ - I₂ ≤ W - I) (hW : W₂ + (W - I - (W₂ - I₂)) ≤ W)
    (op : ApFixed W₂ I₂) :
    (assign W I op).raw = op.raw * 2 ^ (W - I - (W₂ - I₂)) := by
  rw [assign_of_le hF]
  generalize W - I - (W₂ - I₂) = k at hW ⊢
  have hk : (0 : ℤ) < 2 ^ k := by positivity
  have hlo := op.le_two_mul_raw
  have hhi := op.two_mul_raw_lt
  have hpow : (2 : ℤ) ^ W₂ * 2 ^ k ≤ 2 ^ W := by
    rw [← pow_add]
    exact pow_le_pow_right₀ (by norm_num) hW
  apply raw_ofRaw_of_fits
  · nlinarith only [hlo, hk, hpow]
  · nlinarith only [hhi, hk, hpow]

/-! ### Arithmetic -/

theorem raw_mul (hW : 0 < W) (hW₂ : 0 < W₂) (x : ApFixed W I) (y : ApFixed W₂ I₂) :
    (mul x y).raw = x.raw * y.raw := by
  obtain ⟨w, rfl⟩ := Nat.exists_eq_succ_of_ne_zero hW.ne'
  obtain ⟨w₂, rfl⟩ := Nat.exists_eq_succ_of_ne_zero hW₂.ne'
  have hx : |x.raw| ≤ 2 ^ w := by
    have hlo := x.le_two_mul_raw
    have hhi := x.two_mul_raw_lt
    rw [pow_succ] at hlo hhi
    rw [abs_le]; constructor <;> linarith
  have hy : |y.raw| ≤ 2 ^ w₂ := by
    have hlo := y.le_two_mul_raw
    have hhi := y.two_mul_raw_lt
    rw [pow_succ] at hlo hhi
    rw [abs_le]; constructor <;> linarith
  have hxy : |x.raw * y.raw| ≤ 2 ^ w * 2 ^ w₂ := by
    rw [abs_mul]
    exact mul_le_mul hx hy (abs_nonneg _) (by positivity)
  have hpow : (2 : ℤ) ^ (w.succ + w₂.succ) = 4 * (2 ^ w * 2 ^ w₂) := by
    rw [pow_add, pow_succ, pow_succ]; ring
  have hpos : (0 : ℤ) < 2 ^ w * 2 ^ w₂ := by positivity
  obtain ⟨hlo, hhi⟩ := abs_le.mp hxy
  exact raw_ofRaw_of_fits (by rw [hpow]; linarith) (by rw [hpow]; linarith)

/-- **Accumulation.** `x += y` with a `y` of `k` more fractional bits adds `y` truncated to the
format of `x`, wrapped to the width of `x`. -/
theorem addAssign_eq {k : ℕ} (hI : I ≤ W) (hk : W - I + k = W₂ - I₂) (hpos : 0 < k)
    (x : ApFixed W I) (y : ApFixed W₂ I₂) :
    addAssign x y = ofRaw (x.raw + y.raw / 2 ^ k) := by
  have hF : max (W - I) (W₂ - I₂) = W₂ - I₂ := max_eq_right (by omega)
  have hraw : (add x y).raw = (x.raw * 2 ^ k + y.raw).bmod
      (2 ^ (max (W - I) (W₂ - I₂) + (max I I₂ + 1))) := by
    rw [add, raw_mk, assign_of_le (by omega), assign_of_le (by omega), V_ofRaw, V_ofRaw,
      ← BitVec.ofInt_add, BitVec.toInt_ofInt]
    have hx : max (W - I) (W₂ - I₂) + (max I I₂ + 1) - (max I I₂ + 1) - (W - I) = k := by omega
    have hy : max (W - I) (W₂ - I₂) + (max I I₂ + 1) - (max I I₂ + 1) - (W₂ - I₂) = 0 := by omega
    rw [hx, hy, pow_zero, mul_one]
  have hdrop : max (W - I) (W₂ - I₂) + (max I I₂ + 1) - (max I I₂ + 1) - (W - I) = k := by omega
  rw [addAssign, assign_of_lt (by omega), hdrop, hraw]
  apply ext
  rw [V_ofRaw, V_ofRaw, ofInt_bmod_ediv (by omega), add_comm,
    Int.add_mul_ediv_right _ _ (by positivity), add_comm]

/-- Dropping `k` fractional bits of a wrapped register is dropping them of the integer it was
wrapped from, as long as the register has the `k` bits to spare. -/
theorem assign_ofRaw {k : ℕ} (hk : W - I + k = W₂ - I₂) (hpos : 0 < k) (hW : k + W ≤ W₂) (z : ℤ) :
    assign W I (ofRaw z : ApFixed W₂ I₂) = ofRaw (z / 2 ^ k) := by
  have hdrop : W₂ - I₂ - (W - I) = k := by omega
  rw [assign_of_lt (by omega), hdrop, raw_ofRaw]
  exact ext (ofInt_bmod_ediv hW z)

theorem ofRaw_raw_add (z t : ℤ) :
    (ofRaw ((ofRaw z : ApFixed W I).raw + t) : ApFixed W I) = ofRaw (z + t) := by
  apply ext
  rw [V_ofRaw, V_ofRaw, BitVec.ofInt_add, BitVec.ofInt_add]
  congr 1
  exact BitVec.ofInt_toInt

end ApFixed

end FpgaLabor
