import FpgaLabor.Base.BlockRing
import Mathlib.Logic.Function.Iterate

/-!
# The receive loop of the polling programs

The endless loop of `final_test/main.cpp` and `dma_test_final`: each pass receives one block at
`dma_rx_buf + offs` and moves `offs` on. The test that sends it back to 0 looks one block ahead, so no
pass leaves the buffer; but it compares with `>=`, so a last block that ends with the buffer is never
used. An array of words that fits in memory keeps `offs` and its look-ahead in an `int`.
-/

namespace FpgaLabor.Host

open BlockRing

/-- The bytes of a sample. -/
abbrev dataLength : ℕ := 4

/-- What `dma_rcv` programs: the destination (split over two registers) and the length in bytes. -/
structure RcvTransfer where
  dst : ℕ
  length : ℕ
  deriving DecidableEq

/-- `dma_rcv`. -/
def dmaRcv (dst length : ℕ) : RcvTransfer := ⟨dst, length⟩

/-- `offs` after a pass of the loop. -/
def nextOffs (bufferSize blockSize offs : ℕ) : ℕ :=
  let offs := offs + blockSize
  if bufferSize ≤ offs + blockSize then 0 else offs

/-- `offs` at the beginning of pass `k`. -/
def offsAt (bufferSize blockSize k : ℕ) : ℕ := (nextOffs bufferSize blockSize)^[k] 0

/-- The transfer of pass `k`. -/
def rcvAt (dmaRxBuf bufferSize blockSize k : ℕ) : RcvTransfer :=
  dmaRcv (dmaRxBuf + dataLength * offsAt bufferSize blockSize k) (blockSize * dataLength)

/-- All transfers lie in the buffer. -/
def InBuffer (dmaRxBuf bufferSize blockSize : ℕ) : Prop :=
  ∀ k, dmaRxBuf ≤ (rcvAt dmaRxBuf bufferSize blockSize k).dst ∧
    (rcvAt dmaRxBuf bufferSize blockSize k).dst + (rcvAt dmaRxBuf bufferSize blockSize k).length ≤
      dmaRxBuf + bufferSize * dataLength

/-- The transfers of every lap fill the blocks of the buffer in order, each once. -/
def VisitsAll (dmaRxBuf bufferSize blockSize : ℕ) : Prop :=
  ∀ lap i, i < bufferSize / blockSize →
    rcvAt dmaRxBuf bufferSize blockSize (lap * (bufferSize / blockSize) + i) =
      ⟨dmaRxBuf + dataLength * (i * blockSize), blockSize * dataLength⟩

variable {bufferSize blockSize : ℕ}

/-- The loop walks through the ring without its last block. -/
theorem nextOffs_eq_advance (bufferSize blockSize offs : ℕ) :
    nextOffs bufferSize blockSize offs = advance 0 (bufferSize - blockSize) blockSize offs := by
  unfold nextOffs advance
  refine if_congr ?_ rfl rfl
  omega

theorem offsAt_eq_slot (bufferSize blockSize k : ℕ) :
    offsAt bufferSize blockSize k = slot 0 (stops (bufferSize - blockSize) blockSize) blockSize k := by
  induction k with
  | zero => exact slot_zero.symm
  | succ k ih =>
    unfold offsAt at ih
    rw [offsAt, Function.iterate_succ_apply', ih, nextOffs_eq_advance, advance_slot_stops]

/-! ### The blocks visited -/

theorem stops_le_div (hpos : 0 < blockSize) (hle : blockSize ≤ bufferSize) :
    stops (bufferSize - blockSize) blockSize ≤ bufferSize / blockSize := by
  rw [stops_le_iff hpos (Nat.div_pos hle hpos)]
  have hdiv := Nat.div_add_mod bufferSize blockSize
  have hmod := Nat.mod_lt bufferSize hpos
  omega

theorem stops_eq_div_of_not_dvd (hpos : 0 < blockSize) (hle : blockSize ≤ bufferSize)
    (h : blockSize ∣ bufferSize → blockSize = bufferSize) :
    stops (bufferSize - blockSize) blockSize = bufferSize / blockSize := by
  refine Nat.le_antisymm (stops_le_div hpos hle) ?_
  by_cases hdvd : blockSize ∣ bufferSize
  · rw [← h hdvd, Nat.div_self hpos]
    exact stops_pos _ _
  · -- the buffer ends inside the block after the last one visited
    have hcover := (stops_le_iff hpos (stops_pos (bufferSize - blockSize) blockSize)).mp (Nat.le_refl _)
    have hne : bufferSize ≠ blockSize * (stops (bufferSize - blockSize) blockSize + 1) :=
      fun heq => hdvd ⟨_, heq⟩
    refine Nat.le_of_lt_succ (Nat.div_lt_of_lt_mul ?_)
    rw [Nat.mul_succ] at hne ⊢
    omega

theorem stops_of_dvd (hpos : 0 < blockSize) (hlt : blockSize < bufferSize)
    (hdvd : blockSize ∣ bufferSize) :
    stops (bufferSize - blockSize) blockSize = bufferSize / blockSize - 1 := by
  obtain ⟨n, rfl⟩ := hdvd
  have hn : 1 < n := Nat.lt_of_mul_lt_mul_left ((Nat.mul_one blockSize).trans_lt hlt)
  rw [Nat.mul_div_cancel_left n hpos, Nat.mul_comm, ← Nat.sub_one_mul]
  exact stops_mul (Nat.sub_pos_of_lt hn) hpos

theorem offsAt_lt_last (hpos : 0 < blockSize) (hlt : blockSize < bufferSize)
    (hdvd : blockSize ∣ bufferSize) (k : ℕ) :
    offsAt bufferSize blockSize k < (bufferSize / blockSize - 1) * blockSize := by
  have hk := Nat.mod_lt k (stops_pos (bufferSize - blockSize) blockSize)
  rw [offsAt_eq_slot, slot, Nat.zero_add]
  rw [stops_of_dvd hpos hlt hdvd] at hk ⊢
  exact Nat.mul_lt_mul_of_pos_right hk hpos

theorem inBuffer (dmaRxBuf : ℕ) (hpos : 0 < blockSize) (hle : blockSize ≤ bufferSize) :
    InBuffer dmaRxBuf bufferSize blockSize := by
  intro k
  have hk : k % stops (bufferSize - blockSize) blockSize < bufferSize / blockSize :=
    Nat.lt_of_lt_of_le (Nat.mod_lt k (stops_pos _ _)) (stops_le_div hpos hle)
  have hend : (k % stops (bufferSize - blockSize) blockSize + 1) * blockSize ≤ bufferSize :=
    (Nat.mul_le_mul_right blockSize hk).trans (Nat.div_mul_le_self bufferSize blockSize)
  rw [Nat.succ_mul] at hend
  refine ⟨Nat.le_add_right _ _, ?_⟩
  simp only [rcvAt, dmaRcv, dataLength, offsAt_eq_slot, slot]
  omega

/-- **The walk of the polling receiver.** It stays in the buffer; and it fills all blocks of the buffer in
order in every lap exactly when the last block does not end with the buffer, or is the only one. -/
theorem polling_walk_iff (dmaRxBuf bufferSize blockSize : ℕ) (hpos : 0 < blockSize)
    (hle : blockSize ≤ bufferSize) :
    InBuffer dmaRxBuf bufferSize blockSize ∧
      (InBuffer dmaRxBuf bufferSize blockSize ∧ VisitsAll dmaRxBuf bufferSize blockSize ↔
        (blockSize ∣ bufferSize → blockSize = bufferSize)) := by
  have hn : 0 < bufferSize / blockSize := Nat.div_pos hle hpos
  refine ⟨inBuffer dmaRxBuf hpos hle, ?_⟩
  rw [and_iff_right (inBuffer dmaRxBuf hpos hle)]
  refine ⟨?_, ?_⟩
  · intro hall hdvd
    by_contra hne
    have hlast := hall 0 (bufferSize / blockSize - 1) (Nat.sub_lt hn Nat.one_pos)
    have hlt := offsAt_lt_last hpos (Nat.lt_of_le_of_ne hle hne) hdvd (bufferSize / blockSize - 1)
    rw [Nat.zero_mul, Nat.zero_add, rcvAt, dmaRcv, RcvTransfer.mk.injEq, Nat.add_left_cancel_iff] at hlast
    rw [Nat.mul_left_cancel (by decide) hlast.1] at hlt
    exact Nat.lt_irrefl _ hlt
  · intro h lap i hi
    rw [rcvAt, dmaRcv, offsAt_eq_slot, stops_eq_div_of_not_dvd hpos hle h, slot, Nat.mul_add_mod_of_lt hi,
      Nat.zero_add]

/-- A buffer of ten words with blocks of three. -/
theorem polling_walk_ten_words : VisitsAll 0 10 3 :=
  ((polling_walk_iff 0 10 3 (by decide) (by decide)).2.mpr (by decide)).2

/-- Block 4095 of the shipped buffer is never filled. -/
theorem polling_walk_shipped :
    ¬ ∀ dmaRxBuf bufferSize blockSize : ℕ, 0 < blockSize → blockSize ≤ bufferSize →
      InBuffer dmaRxBuf bufferSize blockSize ∧ VisitsAll dmaRxBuf bufferSize blockSize := by
  intro hclaim
  have hlast := (hclaim 0 (1024 * 1024) 256 (by decide) (by decide)).2 0 4095 (by decide)
  have hlt : offsAt (1024 * 1024) 256 (0 * (1024 * 1024 / 256) + 4095) < 4095 * 256 :=
    offsAt_lt_last (by decide) (by decide) (by decide) _
  rw [rcvAt, dmaRcv, RcvTransfer.mk.injEq, Nat.add_left_cancel_iff] at hlast
  rw [Nat.mul_left_cancel (by decide) hlast.1] at hlt
  exact absurd hlt (by decide)

end FpgaLabor.Host
