import FpgaLabor.Base.ApFixed
import FpgaLabor.Base.PacketCounter

/-!
# The types of the audio cores, and the beat they both emit

The fixed-point formats of `types.h`, the stream beat `axis_type`, and the block that `fir_hw` and
`bypass_hw` each contain twice, once per channel: bump the beat counter, write the beat with `last`
set when the counter reaches `tlast_dnum`, and clear the counter then.
-/

namespace FpgaLabor

/-- `din_t`. -/
abbrev DinT := ApFixed 24 1

/-- `dout_t`. -/
abbrev DoutT := ApFixed 32 1

/-- `coeff_t`. -/
abbrev CoeffT := ApFixed 32 1

/-- `acc_t`. -/
abbrev AccT := ApFixed 48 2

theorem raw_range (x : DinT) : -2 ^ 23 ≤ x.raw ∧ x.raw < 2 ^ 23 := by
  have hlo := x.le_two_mul_raw
  have hhi := x.two_mul_raw_lt
  constructor <;> omega

/-- `axis_type`, less the side channels the cores never assign. -/
structure AxisType where
  data : DoutT
  keep : BitVec 4
  last : Bool
deriving DecidableEq, Repr

/-- `cnt++; out_data = …; res.write(out_data); if (cnt == tlast_dnum) cnt = 0;` -/
def writeBeat (tlastDnum cnt : BitVec 16) (data : DoutT) : BitVec 16 × AxisType :=
  let cnt := cnt + 1
  let outData : AxisType := { data := data, keep := -1, last := cnt == tlastDnum }
  (if cnt == tlastDnum then 0 else cnt, outData)

end FpgaLabor
