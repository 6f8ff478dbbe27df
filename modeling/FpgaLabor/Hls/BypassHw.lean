import FpgaLabor.Hls.Types

/-!
# The bypass core `bypass_hw`

`bypassHw` is one call of the core: its only static variable is the beat counter, and every call
writes the two input samples as they are.
-/

namespace FpgaLabor

/-- The arguments of one call. -/
structure BypassHwArgs where
  tlastDnum : BitVec 16
  inputL : DinT
  inputR : DinT

/-- The static variable. -/
structure BypassHwState where
  cnt : BitVec 16

/-- The static variable before the first call. -/
def BypassHwState.initial : BypassHwState where
  cnt := 0

/-- One call of `bypass_hw`. -/
def bypassHw (s : BypassHwState) (args : BypassHwArgs) : BypassHwState × List AxisType :=
  -- left channel, then right channel
  let left := writeBeat args.tlastDnum s.cnt (args.inputL.assign 32 1)
  let right := writeBeat args.tlastDnum left.1 (args.inputR.assign 32 1)
  ({ cnt := right.1 }, [left.2, right.2])

open PacketCounter (bump hit)

theorem bypassHw_eq (s : BypassHwState) (args : BypassHwArgs) :
    bypassHw s args =
      (⟨bump args.tlastDnum (bump args.tlastDnum s.cnt)⟩,
        [⟨args.inputL.assign 32 1, -1, hit args.tlastDnum s.cnt⟩,
          ⟨args.inputR.assign 32 1, -1, hit args.tlastDnum (bump args.tlastDnum s.cnt)⟩]) := rfl

theorem bypassHw_counts (limit : BitVec 16) :
    PacketCounter.Counts bypassHw BypassHwState.cnt AxisType.last limit
      (fun args => args.tlastDnum = limit) := by
  rintro s args rfl
  exact ⟨rfl, rfl⟩

end FpgaLabor
