import FpgaLabor.Base.HistoryRing
import FpgaLabor.Hls.Types

/-!
# The FIR core `fir_hw`

`firHw` is one call of the core: the static variables are its state, the arguments are read anew on
each call (the four register arguments may change between calls), and the beats written to `res` are
its output. `firHw_cases` says once what a call can do; the rest of the development uses it instead
of the definition.
-/

namespace FpgaLabor

/-- The arguments of one call. `coeff_hw` has 512 entries, one per 9-bit index. -/
structure FirHwArgs where
  tlastDnum : BitVec 16
  smplRdNum : BitVec 3
  tapNumM1 : BitVec 9
  coeffHw : BitVec 9 → CoeffT
  inputL : DinT
  inputR : DinT

/-- The static variables. The 512-entry buffers are indexed by `ap_uint<9>`. -/
structure FirHwState where
  bufferLeft : BitVec 9 → DinT
  bufferRight : BitVec 9 → DinT
  writeIdx : BitVec 9
  cnt : BitVec 16
  decCnt : BitVec 3

/-- The static variables before the first call. -/
def FirHwState.initial : FirHwState where
  bufferLeft := fun _ => 0
  bufferRight := fun _ => 0
  writeIdx := 0
  cnt := 0
  decCnt := 0

/-- `acc += (acc_t)sample * coeff_hw[i]` for one channel, with `read_idx = write_idx - i`. -/
def firTap (coeffHw : BitVec 9 → CoeffT) (buffer : BitVec 9 → DinT) (writeIdx : BitVec 9)
    (acc : AccT) (i : ℕ) : AccT :=
  let readIdx := writeIdx - BitVec.ofNat 9 i
  let sample := buffer readIdx
  acc.addAssign ((sample.assign 48 2).mul (coeffHw (BitVec.ofNat 9 i)))

/-- `for (int i = 0; i <= tap_num_m1; ++i)`, both accumulators in one pass. -/
def firLoop (args : FirHwArgs) (bufferLeft bufferRight : BitVec 9 → DinT) (writeIdx : BitVec 9) :
    AccT × AccT :=
  (List.range (args.tapNumM1.toNat + 1)).foldl
    (fun acc i => (firTap args.coeffHw bufferLeft writeIdx acc.1 i,
      firTap args.coeffHw bufferRight writeIdx acc.2 i)) (0, 0)

/-- One call of `fir_hw`. -/
def firHw (s : FirHwState) (args : FirHwArgs) : FirHwState × List AxisType :=
  let bufferLeft := Function.update s.bufferLeft s.writeIdx args.inputL
  let bufferRight := Function.update s.bufferRight s.writeIdx args.inputR
  let decCnt := s.decCnt + 1
  if decCnt ≥ args.smplRdNum then
    let acc := firLoop args bufferLeft bufferRight s.writeIdx
    -- left channel, then right channel
    let left := writeBeat args.tlastDnum s.cnt (acc.1.assign 32 1)
    let right := writeBeat args.tlastDnum left.1 (acc.2.assign 32 1)
    ({ bufferLeft := bufferLeft, bufferRight := bufferRight, writeIdx := s.writeIdx + 1
       cnt := right.1, decCnt := 0 }, [left.2, right.2])
  else
    ({ bufferLeft := bufferLeft, bufferRight := bufferRight, writeIdx := s.writeIdx + 1
       cnt := s.cnt, decCnt := decCnt }, [])

/-- The call emits a pair of beats. -/
def Emits (s : FirHwState) (args : FirHwArgs) : Prop := s.decCnt + 1 ≥ args.smplRdNum

instance (s : FirHwState) (args : FirHwArgs) : Decidable (Emits s args) :=
  inferInstanceAs (Decidable (s.decCnt + 1 ≥ args.smplRdNum))

/-- The data word of one channel: its accumulator after the loop, assigned to `dout_t`. -/
def channelWord (coeffHw : BitVec 9 → CoeffT) (tapNumM1 : BitVec 9) (buffer : BitVec 9 → DinT)
    (writeIdx : BitVec 9) : DoutT :=
  ((List.range (tapNumM1.toNat + 1)).foldl (firTap coeffHw buffer writeIdx) 0).assign 32 1

theorem foldl_pair {α β γ : Type*} (f : α → γ → α) (g : β → γ → β) (l : List γ) (a : α) (b : β) :
    l.foldl (fun acc i => (f acc.1 i, g acc.2 i)) (a, b) = (l.foldl f a, l.foldl g b) := by
  induction l generalizing a b with
  | nil => rfl
  | cons i l ih => exact ih _ _

theorem firLoop_eq (args : FirHwArgs) (bufferLeft bufferRight : BitVec 9 → DinT)
    (writeIdx : BitVec 9) :
    firLoop args bufferLeft bufferRight writeIdx =
      ((List.range (args.tapNumM1.toNat + 1)).foldl (firTap args.coeffHw bufferLeft writeIdx) 0,
        (List.range (args.tapNumM1.toNat + 1)).foldl (firTap args.coeffHw bufferRight writeIdx) 0) :=
  foldl_pair _ _ _ _ _

/-! ### What one call does -/

theorem firHw_bufferLeft (s : FirHwState) (args : FirHwArgs) :
    (firHw s args).1.bufferLeft = Function.update s.bufferLeft s.writeIdx args.inputL := by
  dsimp only [firHw]
  split_ifs <;> rfl

theorem firHw_bufferRight (s : FirHwState) (args : FirHwArgs) :
    (firHw s args).1.bufferRight = Function.update s.bufferRight s.writeIdx args.inputR := by
  dsimp only [firHw]
  split_ifs <;> rfl

theorem firHw_writeIdx (s : FirHwState) (args : FirHwArgs) :
    (firHw s args).1.writeIdx = s.writeIdx + 1 := by
  dsimp only [firHw]
  split_ifs <;> rfl

open PacketCounter (bump hit)

/-- **One call**: either it emits a left and a right beat, counts both and restarts the decimation
counter, or it emits nothing and only counts the sample. -/
theorem firHw_cases (s : FirHwState) (args : FirHwArgs) :
    (Emits s args ∧
      (firHw s args).2 =
        [⟨channelWord args.coeffHw args.tapNumM1 (firHw s args).1.bufferLeft s.writeIdx, -1,
            hit args.tlastDnum s.cnt⟩,
          ⟨channelWord args.coeffHw args.tapNumM1 (firHw s args).1.bufferRight s.writeIdx, -1,
            hit args.tlastDnum (bump args.tlastDnum s.cnt)⟩] ∧
      (firHw s args).1.cnt = bump args.tlastDnum (bump args.tlastDnum s.cnt) ∧
      (firHw s args).1.decCnt = 0) ∨
    (¬ Emits s args ∧ (firHw s args).2 = [] ∧ (firHw s args).1.cnt = s.cnt ∧
      (firHw s args).1.decCnt = s.decCnt + 1) := by
  rw [firHw_bufferLeft, firHw_bufferRight]
  by_cases h : Emits s args
  · left
    have hfir : firHw s args = _ := if_pos h
    rw [hfir, firLoop_eq]
    exact ⟨h, rfl, rfl, rfl⟩
  · right
    have hfir : firHw s args = _ := if_neg h
    rw [hfir]
    exact ⟨h, rfl, rfl, rfl⟩

theorem firHw_counts (limit : BitVec 16) :
    PacketCounter.Counts firHw FirHwState.cnt AxisType.last limit (fun args => args.tlastDnum = limit) := by
  rintro s args rfl
  rcases firHw_cases s args with ⟨_, hout, hcnt, _⟩ | ⟨_, hout, hcnt, _⟩
  · rw [hout, hcnt]
    exact ⟨rfl, rfl⟩
  · rw [hout, hcnt]
    exact ⟨rfl, rfl⟩

end FpgaLabor
