import FpgaLabor.Base.Elapsed
import FpgaLabor.Hls.Convolution

/-!
# Decimation in `fir_hw`

`dec_cnt` has three bits and is compared with a register that may change before every call. It still
counts the calls since the last pair exactly (`decCnt_eq_elapsed`): a call that does not emit leaves it
below the register's value, so below seven. The calls that emit are thus those triggered by the values of
`smpl_rd_num` (`firHw_triggered`).
-/

namespace FpgaLabor

open Elapsed (elapsed Triggered elapsed_succ_of_mark elapsed_succ_of_not_mark)

/-- Call `n` of a run emits a pair. -/
def emitsPair (calls : List FirHwArgs) (n : ℕ) : Bool :=
  ((Mealy.outputs firHw FirHwState.initial calls)[n]?).any fun beats => !beats.isEmpty

/-- `smpl_rd_num` at call `n`. -/
def smplRdNumAt (calls : List FirHwArgs) (n : ℕ) : ℕ :=
  (calls[n]?.map fun args => args.smplRdNum.toNat).getD 0

section Run

variable {calls : List FirHwArgs} {n : ℕ}

theorem smplRdNumAt_eq (hn : n < calls.length) : smplRdNumAt calls n = calls[n].smplRdNum.toNat := by
  rw [smplRdNumAt, List.getElem?_eq_getElem hn]
  rfl

theorem smplRdNumAt_le (calls : List FirHwArgs) (n : ℕ) : smplRdNumAt calls n ≤ 7 := by
  by_cases hn : n < calls.length
  · rw [smplRdNumAt_eq hn]
    exact Nat.le_of_lt_succ calls[n].smplRdNum.isLt
  · rw [smplRdNumAt, List.getElem?_eq_none (Nat.not_lt.mp hn)]
    exact Nat.zero_le 7

theorem emitsPair_iff (hn : n < calls.length) : emitsPair calls n = true ↔
    ∃ l r, (Mealy.outputs firHw FirHwState.initial calls)[n]? = some [l, r] := by
  rcases firHw_words calls n hn with hnone | ⟨l, r, hout, -⟩
  · rw [emitsPair, hnone]
    simp
  · rw [emitsPair, hout]
    simp

theorem emitsPair_cases (hn : n < calls.length) :
    let s := Mealy.runState firHw FirHwState.initial (calls.take n)
    (emitsPair calls n = true ∧ Emits s calls[n] ∧
      (Mealy.runState firHw FirHwState.initial (calls.take (n + 1))).decCnt = 0) ∨
    (emitsPair calls n = false ∧ ¬ Emits s calls[n] ∧
      (Mealy.runState firHw FirHwState.initial (calls.take (n + 1))).decCnt = s.decCnt + 1) := by
  intro s
  rw [emitsPair, Mealy.outputs_getElem? _ _ _ _ hn, ← List.take_concat_get' calls n hn,
    Mealy.runState_concat]
  rcases firHw_cases s calls[n] with ⟨hemits, hout, -, hdec⟩ | ⟨hskip, hout, -, hdec⟩
  · exact .inl ⟨by rw [hout]; rfl, hemits, hdec⟩
  · exact .inr ⟨by rw [hout]; rfl, hskip, hdec⟩

theorem emits_iff {s : FirHwState} {args : FirHwArgs} (h : s.decCnt.toNat + 1 < 2 ^ 3) :
    Emits s args ↔ args.smplRdNum.toNat ≤ s.decCnt.toNat + 1 := by
  rw [Emits, ge_iff_le, BitVec.le_def, BitVec.toNat_add_of_lt h]
  rfl

/-- The counter holds the number of calls since the last pair, and never wraps. -/
theorem decCnt_eq_elapsed (calls : List FirHwArgs) (n : ℕ) (hn : n ≤ calls.length) :
    (Mealy.runState firHw FirHwState.initial (calls.take n)).decCnt.toNat = elapsed (emitsPair calls) n ∧
      elapsed (emitsPair calls) n < 7 := by
  induction n with
  | zero => exact ⟨rfl, Nat.succ_pos 6⟩
  | succ n ih =>
    obtain ⟨hdec, hlt⟩ := ih (Nat.le_of_succ_le hn)
    rcases emitsPair_cases hn with ⟨hmark, -, hnext⟩ | ⟨hmark, hskip, hnext⟩
    · rw [elapsed_succ_of_mark hmark, hnext]
      exact ⟨rfl, by decide⟩
    · -- the register had not been reached, and it is at most seven
      rw [emits_iff (by omega), hdec, ← smplRdNumAt_eq hn] at hskip
      have hle := smplRdNumAt_le calls n
      rw [elapsed_succ_of_not_mark hmark, hnext, BitVec.toNat_add_of_lt (by rw [hdec]; simp; omega), hdec]
      exact ⟨rfl, by omega⟩

theorem firHw_triggered (calls : List FirHwArgs) :
    Triggered (smplRdNumAt calls) calls.length (emitsPair calls) := by
  intro n hn
  obtain ⟨hdec, hlt⟩ := decCnt_eq_elapsed calls n (Nat.le_of_lt hn)
  rw [smplRdNumAt_eq hn, ← hdec, ← emits_iff (by omega)]
  rcases emitsPair_cases hn with ⟨hmark, hemits, -⟩ | ⟨hmark, hskip, -⟩
  · exact iff_of_true hmark hemits
  · exact iff_of_false (by rw [hmark]; exact Bool.false_ne_true) hskip

end Run

/-- **Decimation.** In every run and for every sequence of values of `smpl_rd_num`: `dec_cnt` holds the
number of calls since the last pair and never wraps, and a call emits a pair exactly when, itself counted,
at least `smpl_rd_num` calls have passed. So a constant `d` emits on every `d`-th call, and two pairs in
succession are at least the register's value at the second one apart and at most its value just before. -/
theorem firHw_decimation (calls : List FirHwArgs) :
    (∀ n (hn : n < calls.length),
      ((∃ l r, (Mealy.outputs firHw FirHwState.initial calls)[n]? = some [l, r]) ↔
        calls[n].smplRdNum.toNat ≤ elapsed (emitsPair calls) n + 1) ∧
      (Mealy.runState firHw FirHwState.initial (calls.take n)).decCnt.toNat =
        elapsed (emitsPair calls) n ∧
      (Mealy.runState firHw FirHwState.initial (calls.take n)).decCnt.toNat + 1 < 2 ^ 3) ∧
    (∀ d : BitVec 3, (∀ args ∈ calls, args.smplRdNum = d) → ∀ n < calls.length,
      (emitsPair calls n = true ↔ max 1 d.toNat ∣ n + 1)) ∧
    ∀ a b (hb : b < calls.length), a < b → emitsPair calls a = true → emitsPair calls b = true →
      (∀ k, a < k → k < b → emitsPair calls k = false) →
      max 1 calls[b].smplRdNum.toNat ≤ b - a ∧ b - a ≤ max 1 calls[b - 1].smplRdNum.toNat := by
  refine ⟨fun n hn => ?_, fun d hd n hn => ?_, fun a b hb hab ha hmark hnone => ?_⟩
  · obtain ⟨hdec, hlt⟩ := decCnt_eq_elapsed calls n (Nat.le_of_lt hn)
    refine ⟨?_, hdec, by omega⟩
    rw [← emitsPair_iff hn, ← smplRdNumAt_eq hn]
    exact firHw_triggered calls n hn
  · have hconst : Triggered (fun _ => d.toNat) calls.length (emitsPair calls) := by
      intro k hk
      rw [← hd calls[k] (List.getElem_mem hk), ← smplRdNumAt_eq hk]
      exact firHw_triggered calls k hk
    exact hconst.periodic hn
  · rw [← smplRdNumAt_eq hb, ← smplRdNumAt_eq (by omega)]
    exact (firHw_triggered calls).gap hab hb ha hmark hnone

/-- Six calls, the register lowered from 3 to 2 before the fifth: pairs on the third and the fifth. -/
example : (List.range 6).filter (emitsPair ([3, 3, 3, 3, 2, 2].map fun d =>
    { tlastDnum := 256, smplRdNum := d, tapNumM1 := 0, coeffHw := fun _ => 0, inputL := 0, inputR := 0 })) =
    [2, 4] := by decide

end FpgaLabor
