import Mathlib.Data.BitVec
import Mathlib.Tactic.FinCases
import Mathlib.Tactic.IntervalCases

/-!
# Words written byte by byte

`merge mask d m` takes the bits of `mask` from `d` and the others from `m`. A memory that stores the
strobed bytes of a word one after the other (`writeBytes`) and a register that masks the whole word
(`wmask`) do the same (`writeBytes_eq_merge`), because merges of one word compose by the union of their
masks (`merge_merge`).
-/

namespace FpgaLabor.ByteLanes

variable {w : ℕ}

/-- The bits of `mask` from `d`, the others from `m`. -/
def merge (mask d m : BitVec w) : BitVec w := (d &&& mask) ||| (m &&& ~~~mask)

@[simp] theorem merge_zero (d m : BitVec w) : merge 0#w d m = m := by
  simp [merge]

@[simp] theorem merge_allOnes (d m : BitVec w) : merge (BitVec.allOnes w) d m = d := by
  simp [merge]

theorem merge_merge (mask mask' d m : BitVec w) :
    merge mask d (merge mask' d m) = merge (mask' ||| mask) d m := by
  ext i hi
  simp only [merge, BitVec.getElem_or, BitVec.getElem_and, BitVec.getElem_not]
  cases d[i] <;> cases m[i] <;> cases mask[i] <;> cases mask'[i] <;> rfl

/-- The bits of byte `i` of a 32-bit word. -/
def byteMask (i : ℕ) : BitVec 32 := 0xff#32 <<< (8 * i)

/-- `if (we[i]) mem[i*8 +: 8] <= d[i*8 +: 8]` for the four bytes in turn. -/
def writeBytes (we : BitVec 4) (d m : BitVec 32) : BitVec 32 :=
  (List.range 4).foldl (fun m i => if we.getLsbD i then merge (byteMask i) d m else m) m

/-- `{ {8{WSTRB[3]}}, {8{WSTRB[2]}}, {8{WSTRB[1]}}, {8{WSTRB[0]}} }`. -/
def wmask (strb : BitVec 4) : BitVec 32 :=
  BitVec.fill 8 (strb.getLsbD 3) ++ BitVec.fill 8 (strb.getLsbD 2) ++ BitVec.fill 8 (strb.getLsbD 1) ++
    BitVec.fill 8 (strb.getLsbD 0)

theorem ite_merge (b : Bool) (mask d m : BitVec w) :
    (if b = true then merge mask d m else m) = merge (if b = true then mask else 0#w) d m := by
  cases b <;> simp

theorem wmask_eq (strb : BitVec 4) :
    wmask strb = (((if strb.getLsbD 0 = true then byteMask 0 else 0#32) |||
      if strb.getLsbD 1 = true then byteMask 1 else 0#32) |||
      if strb.getLsbD 2 = true then byteMask 2 else 0#32) |||
      if strb.getLsbD 3 = true then byteMask 3 else 0#32 := by
  revert strb
  decide

@[simp] theorem wmask_zero : wmask 0#4 = 0#32 := by decide

@[simp] theorem wmask_allOnes : wmask (BitVec.allOnes 4) = BitVec.allOnes 32 := by decide

/-- **Byte writes are a masked write** of the whole word. -/
theorem writeBytes_eq_merge (we : BitVec 4) (d m : BitVec 32) :
    writeBytes we d m = merge (wmask we) d m := by
  rw [wmask_eq, ← merge_merge, ← merge_merge, ← merge_merge]
  simp only [writeBytes, List.range, List.range.loop, List.foldl, ite_merge]

/-! ### Bytes -/

/-- Byte `i` of a word, the lowest first. -/
def byte (m : BitVec 32) (i : ℕ) : BitVec 8 := m.extractLsb' (8 * i) 8

theorem ext_byte {m m' : BitVec 32} (h : ∀ i < 4, byte m i = byte m' i) : m = m' := by
  apply BitVec.eq_of_getLsbD_eq
  intro k hk
  have hbyte := congrArg (fun b => b.getLsbD (k % 8)) (h (k / 8) (by omega))
  have hpos : 8 * (k / 8) + k % 8 = k := by omega
  simpa [byte, BitVec.getLsbD_extractLsb', hpos, show k % 8 < 8 by omega] using hbyte

/-- A byte in its lane of a word. -/
def lane (i : ℕ) (b : BitVec 8) : BitVec 32 := b.setWidth 32 <<< (8 * i)

theorem getLsbD_lane (i : ℕ) (b : BitVec 8) (k : ℕ) (hk : k < 32) :
    (lane i b).getLsbD k = (decide (8 * i ≤ k) && b.getLsbD (k - 8 * i)) := by
  simp only [lane, BitVec.getLsbD_shiftLeft, BitVec.getLsbD_setWidth]
  grind

theorem byteMask_eq_lane (i : ℕ) : byteMask i = lane i (BitVec.allOnes 8) := rfl

theorem byte_merge {i j : ℕ} (hi : i < 4) (hj : j < 4) (b : BitVec 8) (m : BitVec 32) :
    byte (merge (byteMask i) (lane i b) m) j = if j = i then b else byte m j := by
  apply BitVec.eq_of_getLsbD_eq
  intro k hk
  have hlt : 8 * j + k < 32 := by omega
  simp only [byte, merge, byteMask_eq_lane, BitVec.getLsbD_extractLsb', BitVec.getLsbD_or, BitVec.getLsbD_and,
    BitVec.getLsbD_not, getLsbD_lane _ _ _ hlt, BitVec.getLsbD_allOnes, hk]
  by_cases hji : j = i
  · subst hji
    simp [hk, hlt]
  · rw [if_neg hji]
    have hout : (decide (8 * i ≤ 8 * j + k) && decide (8 * j + k - 8 * i < 8)) = false := by
      simp only [Bool.and_eq_false_iff, decide_eq_false_iff_not]
      omega
    have hin : (decide (8 * i ≤ 8 * j + k) && b.getLsbD (8 * j + k - 8 * i)) = false := by
      by_cases hle : 8 * i ≤ 8 * j + k
      · rw [BitVec.getLsbD_of_ge b _ (by grind), Bool.and_false]
      · simp [hle]
    simp [hout, hin, hlt, hk]

theorem byte_writeBytes {i j : ℕ} (hi : i < 4) (hj : j < 4) (b : BitVec 8) (m : BitVec 32) :
    byte (writeBytes (1#4 <<< i) (lane i b) m) j = if j = i then b else byte m j := by
  have hmask : wmask (1#4 <<< i) = byteMask i := by interval_cases i <;> decide
  rw [writeBytes_eq_merge, hmask, byte_merge hi hj]

end FpgaLabor.ByteLanes
