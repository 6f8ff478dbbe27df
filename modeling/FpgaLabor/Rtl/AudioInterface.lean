import FpgaLabor.Base.ShiftRegister

/-!
# The serial receiver `audio_interface`

The registers of the module, one clock edge (`posedge`), and its combinational outputs. Cycle `t`
after reset release shows the registers `regs … t`; the clock edge that ends it takes sample `t` of
the codec's signals. A transition first seen at sample `j` therefore raises its valid in cycle
`j + 2`, and a rising bit clock first seen at sample `r` shifts in sample `r` of the data line at the
edge that ends cycle `r + 2` (`adcDataShr_eq`): the data of an edge is in the shift register one
cycle after the valid of a transition at the same sample, so never in the word that valid hands
over.
-/

namespace FpgaLabor.AudioInterface

open ShiftRegister

/-- The inputs of a cycle. -/
structure Inputs where
  rstN : Bool
  en : Bool
  codecLrclk : Bool
  codecBclk : Bool
  codecSdout : Bool

/-- `lrclk_shr`, `bclk_shr`, `sdout_shr`, `adc_data_shr`. -/
structure Regs where
  lrclkShr : BitVec 3
  bclkShr : BitVec 3
  sdoutShr : BitVec 2
  adcDataShr : BitVec 32

/-- `lrclk_shr[2:1] == 2'b01`. -/
def lrclkRise (r : Regs) : Bool := r.lrclkShr.extractLsb' 1 2 == 0b01#2

/-- `lrclk_shr[2:1] == 2'b10`. -/
def lrclkFall (r : Regs) : Bool := r.lrclkShr.extractLsb' 1 2 == 0b10#2

/-- `bclk_shr[2:1] == 2'b01`. -/
def bclkRise (r : Regs) : Bool := r.bclkShr.extractLsb' 1 2 == 0b01#2

/-- Both `always @(posedge clk)` blocks. -/
def posedge (r : Regs) (i : Inputs) : Regs where
  lrclkShr := if !i.rstN then 0 else shiftIn r.lrclkShr i.codecLrclk
  bclkShr := if !i.rstN then 0 else shiftIn r.bclkShr i.codecBclk
  sdoutShr := if !i.rstN then 0 else shiftIn r.sdoutShr i.codecSdout
  adcDataShr := if bclkRise r then shiftIn r.adcDataShr (r.sdoutShr.getLsbD 1) else r.adcDataShr

/-- `adc_valid_l`. -/
def adcValidL (r : Regs) (i : Inputs) : Bool := lrclkFall r && i.en

/-- `adc_valid_r`. -/
def adcValidR (r : Regs) (i : Inputs) : Bool := lrclkRise r && i.en

/-- `adc_data`. -/
def adcData (r : Regs) : BitVec 24 := r.adcDataShr.extractLsb' 8 24

/-- The registers a clock edge under reset leaves; `adc_data_shr` has no reset. -/
def afterReset (adcDataShr : BitVec 32) : Regs := ⟨0, 0, 0, adcDataShr⟩

/-- The registers in cycle `t` after reset release. -/
abbrev regs (adcDataShr : BitVec 32) (inp : ℕ → Inputs) (t : ℕ) : Regs :=
  stateAt posedge (afterReset adcDataShr) inp t

/-! ### The synchronisers -/

theorem extractLsb'_one_two (v : BitVec 3) :
    (v.extractLsb' 1 2 == 0b01#2) = (!v.getLsbD 2 && v.getLsbD 1) ∧
      (v.extractLsb' 1 2 == 0b10#2) = (v.getLsbD 2 && !v.getLsbD 1) := by
  revert v
  decide

section Run

variable {adcDataShr : BitVec 32} {inp : ℕ → Inputs} (hrst : ∀ t, (inp t).rstN = true)
include hrst

theorem getLsbD_lrclkShr (t : ℕ) {i : ℕ} (hi : i ≤ 2) :
    (regs adcDataShr inp t).lrclkShr.getLsbD i = delayed (fun j => (inp j).codecLrclk) t i := by
  refine getLsbD_of_shifting (v := fun t => (regs adcDataShr inp t).lrclkShr) rfl (fun t => ?_) t hi
  simp only [regs, stateAt, posedge, hrst, Bool.not_true, Bool.false_eq_true, if_false]

theorem getLsbD_bclkShr (t : ℕ) {i : ℕ} (hi : i ≤ 2) :
    (regs adcDataShr inp t).bclkShr.getLsbD i = delayed (fun j => (inp j).codecBclk) t i := by
  refine getLsbD_of_shifting (v := fun t => (regs adcDataShr inp t).bclkShr) rfl (fun t => ?_) t hi
  simp only [regs, stateAt, posedge, hrst, Bool.not_true, Bool.false_eq_true, if_false]

theorem getLsbD_sdoutShr (t : ℕ) {i : ℕ} (hi : i ≤ 1) :
    (regs adcDataShr inp t).sdoutShr.getLsbD i = delayed (fun j => (inp j).codecSdout) t i := by
  refine getLsbD_of_shifting (v := fun t => (regs adcDataShr inp t).sdoutShr) rfl (fun t => ?_) t hi
  simp only [regs, stateAt, posedge, hrst, Bool.not_true, Bool.false_eq_true, if_false]

theorem lrclkFall_eq (t : ℕ) :
    lrclkFall (regs adcDataShr inp t) =
      (delayed (fun j => (inp j).codecLrclk) t 2 && !delayed (fun j => (inp j).codecLrclk) t 1) := by
  unfold lrclkFall
  rw [(extractLsb'_one_two _).2, getLsbD_lrclkShr hrst t le_rfl,
    getLsbD_lrclkShr hrst t (by omega)]

theorem lrclkRise_eq (t : ℕ) :
    lrclkRise (regs adcDataShr inp t) =
      (!delayed (fun j => (inp j).codecLrclk) t 2 && delayed (fun j => (inp j).codecLrclk) t 1) := by
  unfold lrclkRise
  rw [(extractLsb'_one_two _).1, getLsbD_lrclkShr hrst t le_rfl,
    getLsbD_lrclkShr hrst t (by omega)]

theorem bclkRise_eq (t : ℕ) :
    bclkRise (regs adcDataShr inp t) =
      (!delayed (fun j => (inp j).codecBclk) t 2 && delayed (fun j => (inp j).codecBclk) t 1) := by
  unfold bclkRise
  rw [(extractLsb'_one_two _).1, getLsbD_bclkShr hrst t le_rfl,
    getLsbD_bclkShr hrst t (by omega)]

/-- The left valid of cycle `t` is the falling edge first seen at sample `t - 2`, gated by `en`. -/
theorem adcValidL_iff (t : ℕ) :
    adcValidL (regs adcDataShr inp t) (inp t) = true ↔
      ∃ j, t = j + 2 ∧ fall (fun k => (inp k).codecLrclk) j = true ∧ (inp t).en = true := by
  unfold adcValidL
  rw [lrclkFall_eq hrst, Bool.and_eq_true, Bool.and_eq_true, Bool.not_eq_true', fall_iff_delayed,
    ← exists_and_right]
  simp only [and_assoc]

theorem adcValidR_iff (t : ℕ) :
    adcValidR (regs adcDataShr inp t) (inp t) = true ↔
      ∃ j, t = j + 2 ∧ rise (fun k => (inp k).codecLrclk) j = true ∧ (inp t).en = true := by
  unfold adcValidR
  rw [lrclkRise_eq hrst, Bool.and_eq_true, Bool.and_eq_true, Bool.not_eq_true', rise_iff_delayed,
    ← exists_and_right]
  simp only [and_assoc]

/-! ### The data shift register -/

/-- In cycle `t` the data shift register has taken the data samples of all rising bit clocks first
seen before sample `t - 2`, in order. -/
theorem adcDataShr_eq (t : ℕ) :
    (regs adcDataShr inp t).adcDataShr =
      ((samplesIn (rise fun j => (inp j).codecBclk) 0 (t - 2)).map
        fun r => (inp r).codecSdout).foldl shiftIn adcDataShr := by
  induction t with
  | zero => rfl
  | succ t ih =>
    have hstep : (regs adcDataShr inp (t + 1)).adcDataShr =
        if bclkRise (regs adcDataShr inp t) then
          shiftIn (regs adcDataShr inp t).adcDataShr ((regs adcDataShr inp t).sdoutShr.getLsbD 1)
        else (regs adcDataShr inp t).adcDataShr := rfl
    rw [hstep, bclkRise_eq hrst, getLsbD_sdoutShr hrst t le_rfl, ih]
    match t with
    | 0 => rfl
    | 1 => rfl
    | j + 2 =>
      rw [delayed_two, delayed_one, delayed_one, show j + 2 + 1 - 2 = j + 1 by omega,
        samplesIn_succ _ (Nat.zero_le j), List.map_append, List.foldl_append, Nat.add_sub_cancel]
      change (if rise (fun j => (inp j).codecBclk) j then _ else _) = _
      split_ifs with hr
      · rfl
      · rfl

end Run

/-- **The serial receiver.** For every waveform after reset: (1) each transition of the sampled LRCLK
raises exactly one valid, left for a fall and right for a rise, two cycles after its sample and gated
by `en` there, and nothing else raises one; (2) if exactly 32 rising bit clocks lie between two
consecutive transitions, the word handed over for the second one is, most significant bit first, the
data samples at the first 24 of them. -/
theorem audioInterface_receives (inp : ℕ → Inputs) (adcDataShr : BitVec 32)
    (hrst : ∀ t, (inp t).rstN = true) :
    (∀ t,
      (adcValidL (regs adcDataShr inp t) (inp t) = true ↔
        ∃ j, t = j + 2 ∧ fall (fun k => (inp k).codecLrclk) j = true ∧ (inp t).en = true) ∧
      (adcValidR (regs adcDataShr inp t) (inp t) = true ↔
        ∃ j, t = j + 2 ∧ rise (fun k => (inp k).codecLrclk) j = true ∧ (inp t).en = true) ∧
      ¬ (adcValidL (regs adcDataShr inp t) (inp t) = true ∧
        adcValidR (regs adcDataShr inp t) (inp t) = true)) ∧
    ∀ j₁ j₂, j₁ < j₂ →
      (∀ j, j₁ ≤ j → j ≤ j₂ → ((inp j).codecLrclk ≠ prev (fun k => (inp k).codecLrclk) j ↔
        j = j₁ ∨ j = j₂)) →
      (samplesIn (rise fun k => (inp k).codecBclk) j₁ j₂).length = 32 →
      ∀ m < 24, ∃ r, (samplesIn (rise fun k => (inp k).codecBclk) j₁ j₂)[m]? = some r ∧
        (adcData (regs adcDataShr inp (j₂ + 2))).getLsbD (23 - m) = (inp r).codecSdout := by
  refine ⟨fun t => ⟨adcValidL_iff hrst t, adcValidR_iff hrst t, ?_⟩, ?_⟩
  · rintro ⟨hl, hr⟩
    rw [adcValidL, lrclkFall_eq hrst, Bool.and_eq_true, Bool.and_eq_true] at hl
    rw [adcValidR, lrclkRise_eq hrst, Bool.and_eq_true, Bool.and_eq_true, Bool.not_eq_true'] at hr
    rw [hr.1.1] at hl
    exact absurd hl.1.1 Bool.false_ne_true
  · intro j₁ j₂ hlt _ hlen m hm
    set before := samplesIn (rise fun k => (inp k).codecBclk) 0 j₁
    set rises := samplesIn (rise fun k => (inp k).codecBclk) j₁ j₂ with hrises
    have hm' : m < rises.length := by omega
    refine ⟨rises[m], List.getElem?_eq_getElem hm', ?_⟩
    -- the 32 rising edges of the half frame fill the whole shift register
    have hshr : (regs adcDataShr inp (j₂ + 2)).adcDataShr =
        ((before ++ rises).map fun r => (inp r).codecSdout).foldl shiftIn adcDataShr := by
      rw [adcDataShr_eq hrst, Nat.add_sub_cancel, samplesIn_append _ (Nat.zero_le j₁) (Nat.le_of_lt hlt)]
    rw [adcData, BitVec.getLsbD_extractLsb', decide_eq_true (by omega), Bool.true_and, hshr,
      getLsbD_foldl_shiftIn _ _ (by omega) (by simp; omega)]
    rw [List.getElem_map, List.getElem_append_right]
    · congr 3
      simp only [List.length_map, List.length_append]
      omega
    · simp only [List.length_map, List.length_append]
      omega

/-- A square LRCLK of period 128 over a square BCLK of period 2, the data line high in every other
BCLK period. -/
def squareWave (t : ℕ) : Inputs where
  rstN := true
  en := true
  codecLrclk := decide (t / 64 % 2 = 1)
  codecBclk := decide (t % 2 = 1)
  codecSdout := decide (t % 4 = 1)

theorem audioInterface_receives_squareWave :
    adcValidL (regs 0 squareWave 130) (squareWave 130) = true ∧
      ∀ m < 24, ∃ r, (samplesIn (rise fun k => (squareWave k).codecBclk) 64 128)[m]? = some r ∧
        (adcData (regs 0 squareWave 130)).getLsbD (23 - m) = (squareWave r).codecSdout := by
  obtain ⟨hvalid, hdata⟩ := audioInterface_receives squareWave 0 (fun _ => rfl)
  refine ⟨(hvalid 130).1.2 ⟨128, rfl, by decide, rfl⟩, hdata 64 128 (by decide) ?_ (by decide)⟩
  intro j hlo hhi
  obtain ⟨j, rfl⟩ := Nat.exists_eq_add_of_le' (show 1 ≤ j by omega)
  simp only [prev, squareWave, ne_eq, decide_eq_decide]
  omega

end FpgaLabor.AudioInterface
