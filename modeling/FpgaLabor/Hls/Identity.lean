import FpgaLabor.Hls.BypassHw
import FpgaLabor.Hls.Convolution

/-!
# The identity configuration of `fir_hw` against `bypass_hw`

With the single coefficient `0x7FFFFFFF` (one unit below 1.0) and no decimation the FIR core stays in
lock step with the bypass core (`Lockstep`): same calls emit, same counter, so the same `last` flags.
The words differ by the missing unit of the coefficient, which the two truncations turn into an
offset that depends on the sign of the sample only (`identity_word`).
-/

namespace FpgaLabor

open PacketCounter (bump hit)

/-- A call of `fir_hw` in the identity configuration. -/
structure IdentityConfig (args : FirHwArgs) : Prop where
  smplRdNum : args.smplRdNum = 0 ∨ args.smplRdNum = 1
  coeff_zero : args.coeffHw 0 = ⟨0x7FFFFFFF⟩
  coeff_rest : ∀ i, i ≠ 0 → args.coeffHw i = 0

/-- The call of `bypass_hw` on the same inputs and packet length. -/
def toBypass (args : FirHwArgs) : BypassHwArgs := ⟨args.tlastDnum, args.inputL, args.inputR⟩

/-- The offset of a word of the identity filter from the sample it came from. -/
def identityOffset (x : ℤ) : ℤ := if 0 < x then -1 else if x = -2 ^ 23 then 1 else 0

/-! ### The data word -/

theorem tapSum_identity {args : FirHwArgs} (h : IdentityConfig args) (x : ℕ → ℤ) :
    tapSum args.coeffHw args.tapNumM1 x = x 0 * 0x7FFFFFFF / 2 ^ 8 := by
  have htaps := args.tapNumM1.isLt
  rw [tapSum, Finset.sum_eq_single 0]
  · rw [show BitVec.ofNat 9 0 = 0 from rfl, h.coeff_zero]
    rfl
  · intro i hi hi0
    rw [Finset.mem_range] at hi
    have hne : BitVec.ofNat 9 i ≠ 0 := by
      intro heq
      have hmod := congrArg BitVec.toNat heq
      rw [BitVec.toNat_ofNat, Nat.mod_eq_of_lt (by omega)] at hmod
      exact hi0 hmod
    rw [h.coeff_rest _ hne, ApFixed.raw_zero, mul_zero, Int.zero_ediv]
  · intro h0
    exact absurd (Finset.mem_range.mpr (Nat.succ_pos _)) h0

theorem identity_floor {x : ℤ} (hlo : -2 ^ 23 ≤ x) (hhi : x < 2 ^ 23) :
    x * 0x7FFFFFFF / 2 ^ 8 / 2 ^ 15 = x * 2 ^ 8 + identityOffset x := by
  unfold identityOffset
  split_ifs <;> omega

theorem identity_word {args : FirHwArgs} (h : IdentityConfig args) {buffer : BitVec 9 → DinT}
    {writeIdx : BitVec 9} (sample : DinT) (hsample : buffer writeIdx = sample) :
    (channelWord args.coeffHw args.tapNumM1 buffer writeIdx).raw =
      sample.raw * 2 ^ 8 + identityOffset sample.raw := by
  obtain ⟨hlo, hhi⟩ := raw_range sample
  rw [channelWord_eq (fun i _ => rfl), tapSum_identity h, BitVec.sub_zero, hsample,
    identity_floor hlo hhi]
  apply ApFixed.raw_ofRaw_of_fits
  all_goals
    unfold identityOffset
    split_ifs <;> omega

theorem bypass_word (sample : DinT) : (sample.assign 32 1 : DoutT).raw = sample.raw * 2 ^ 8 :=
  ApFixed.raw_assign_of_le (by norm_num) (by norm_num) sample

/-! ### The lock step -/

/-- Both cores are about to number the same beat, and the FIR core emits on every call. -/
def Lockstep (s : FirHwState) (t : BypassHwState) : Prop := s.cnt = t.cnt ∧ s.decCnt = 0

theorem emits_of_identity {args : FirHwArgs} (h : IdentityConfig args) {s : FirHwState}
    (hdec : s.decCnt = 0) : Emits s args := by
  unfold Emits
  rcases h.smplRdNum with hd | hd <;> rw [hd, hdec] <;> decide

theorem Lockstep.step {s : FirHwState} {t : BypassHwState} {args : FirHwArgs} {bargs : BypassHwArgs}
    (hst : Lockstep s t) (hargs : IdentityConfig args ∧ bargs = toBypass args) :
    Lockstep (firHw s args).1 (bypassHw t bargs).1 := by
  obtain ⟨hcnt, hdec⟩ := hst
  obtain ⟨hid, rfl⟩ := hargs
  rcases firHw_cases s args with ⟨_, _, hcnt', hdec'⟩ | ⟨hskip, _⟩
  · refine ⟨?_, hdec'⟩
    rw [hcnt', hcnt]
    rfl
  · exact absurd (emits_of_identity hid hdec) hskip

theorem lockstep_run (calls : List FirHwArgs) (hid : ∀ args ∈ calls, IdentityConfig args) :
    Lockstep (Mealy.runState firHw FirHwState.initial calls)
      (Mealy.runState bypassHw BypassHwState.initial (calls.map toBypass)) := by
  refine Mealy.runState_rel firHw bypassHw (R := Lockstep)
    (Q := fun args bargs => IdentityConfig args ∧ bargs = toBypass args)
    (fun s t args bargs hst hargs => hst.step hargs) ⟨rfl, rfl⟩ ?_
  rw [List.forall₂_map_right_iff]
  exact List.forall₂_same.mpr fun args hargs => ⟨hid args hargs, rfl⟩

/-- **The identity configuration refines the bypass core.** On the same inputs and packet lengths both
cores emit a pair on every call, with equal `last` and `keep`; the bypass word is the sample times 256,
and the FIR word is one less for a positive sample, one more for `-2 ^ 23` and equal otherwise. -/
theorem firHw_identity_refines_bypassHw (calls : List FirHwArgs)
    (hid : ∀ args ∈ calls, IdentityConfig args) (n : ℕ) (hn : n < calls.length) :
    ∃ fl fr bl br,
      (Mealy.outputs firHw FirHwState.initial calls)[n]? = some [fl, fr] ∧
      (Mealy.outputs bypassHw BypassHwState.initial (calls.map toBypass))[n]? = some [bl, br] ∧
      fl.last = bl.last ∧ fr.last = br.last ∧ fl.keep = bl.keep ∧ fr.keep = br.keep ∧
      bl.data.raw = calls[n].inputL.raw * 256 ∧ br.data.raw = calls[n].inputR.raw * 256 ∧
      fl.data.raw = bl.data.raw + identityOffset calls[n].inputL.raw ∧
      fr.data.raw = br.data.raw + identityOffset calls[n].inputR.raw := by
  have hargs := hid calls[n] (List.getElem_mem hn)
  obtain ⟨hcnt, hdec⟩ := lockstep_run (calls.take n) fun args h => hid args (List.mem_of_mem_take h)
  have hbypass := Mealy.outputs_getElem? bypassHw BypassHwState.initial (calls.map toBypass) n
    (by simpa using hn)
  rw [List.getElem_map, ← List.map_take, bypassHw_eq] at hbypass
  rcases firHw_cases (Mealy.runState firHw FirHwState.initial (calls.take n)) calls[n] with
    ⟨_, hout, _⟩ | ⟨hskip, _⟩
  · refine ⟨_, _, _, _, (Mealy.outputs_getElem? _ _ _ _ hn).trans (congrArg some hout), hbypass,
      ?_, ?_, rfl, rfl, bypass_word _, bypass_word _, ?_, ?_⟩
    · rw [hcnt]; rfl
    · rw [hcnt]; rfl
    · refine (identity_word hargs calls[n].inputL ?_).trans ?_
      · rw [firHw_bufferLeft, Function.update_self]
      · exact congrArg (· + _) (bypass_word _).symm
    · refine (identity_word hargs calls[n].inputR ?_).trans ?_
      · rw [firHw_bufferRight, Function.update_self]
      · exact congrArg (· + _) (bypass_word _).symm
  · exact absurd (emits_of_identity hargs hdec) hskip

/-- One call of the identity configuration, with the largest and the smallest sample. -/
def identityArgs : FirHwArgs where
  tlastDnum := 256
  smplRdNum := 1
  tapNumM1 := 511
  coeffHw := fun i => if i = 0 then ⟨0x7FFFFFFF⟩ else 0
  inputL := ⟨0x7FFFFF⟩
  inputR := ⟨0x800000⟩

theorem identityConfig_identityArgs : IdentityConfig identityArgs where
  smplRdNum := .inr rfl
  coeff_zero := rfl
  coeff_rest := fun _ hi => if_neg hi

/-- Three calls with a packet length of their own each. -/
def identityCalls : List FirHwArgs :=
  [{ identityArgs with tlastDnum := 4 }, { identityArgs with tlastDnum := 3, inputL := ⟨0x800000⟩ },
    { identityArgs with tlastDnum := 2 }]

/-- The two ends of the sample range, at the end of a packet. -/
theorem firHw_identity_refines_bypassHw_extremes :
    ∃ fl fr bl br : AxisType, (Mealy.outputs firHw FirHwState.initial identityCalls)[2]? = some [fl, fr] ∧
      (Mealy.outputs bypassHw BypassHwState.initial (identityCalls.map toBypass))[2]? = some [bl, br] ∧
      fl.last = true ∧ bl.last = true ∧ fr.last = false ∧ br.last = false ∧ fl.keep = bl.keep ∧ fr.keep = br.keep ∧
      bl.data.raw = 0x7FFFFF * 256 ∧ br.data.raw = -0x800000 * 256 ∧
      fl.data.raw = 0x7FFFFF * 256 - 1 ∧ fr.data.raw = -0x800000 * 256 + 1 := by
  have hid : ∀ args ∈ identityCalls, IdentityConfig args := by
    simp only [identityCalls, List.mem_cons, List.not_mem_nil, or_false]
    rintro args (rfl | rfl | rfl) <;>
      exact ⟨identityConfig_identityArgs.smplRdNum, identityConfig_identityArgs.coeff_zero,
        identityConfig_identityArgs.coeff_rest⟩
  obtain ⟨fl, fr, bl, br, hfir, hbypass, hfl, hfr, hkl, hkr, hbl, hbr, hdl, hdr⟩ :=
    firHw_identity_refines_bypassHw identityCalls hid 2 (by decide)
  have hout : (Mealy.outputs bypassHw BypassHwState.initial (identityCalls.map toBypass))[2]? =
      some [⟨(⟨0x7FFFFF⟩ : DinT).assign 32 1, -1, true⟩, ⟨(⟨0x800000⟩ : DinT).assign 32 1, -1, false⟩] := by
    decide
  have hbeats := Option.some.inj (hbypass.symm.trans hout)
  simp only [List.cons.injEq, and_true] at hbeats
  obtain ⟨rfl, rfl⟩ := hbeats
  have hl : identityCalls[2].inputL.raw = 0x7FFFFF := by decide
  have hr : identityCalls[2].inputR.raw = -0x800000 := by decide
  rw [hl] at hbl hdl
  rw [hr] at hbr hdr
  refine ⟨fl, fr, _, _, hfir, hbypass, hfl, rfl, hfr, rfl, hkl, hkr, hbl, hbr, ?_, ?_⟩
  · rw [hdl, hbl]
    decide
  · rw [hdr, hbr]
    decide

end FpgaLabor
