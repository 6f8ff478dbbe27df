import FpgaLabor.Base.CallTrace
import FpgaLabor.Hls.Types
import FpgaLabor.Rtl.RegsliceBoth

/-!
# The stream port of a generated core

A core has one slice for each signal of its stream (`AxisSlices`), all driven by the same handshake. The
data path does not influence the handshake (`RegsliceBoth.step_map`), so they are one slice of beats
(`AxisSlices.step_split`), and the stream port is a buffer of two beats (`AxisSlices.step_refines`).

A core hands over the words of one call at a time: `AxisSlices.Pushed` says which, and that what is not in the
slices has been delivered.
-/

namespace FpgaLabor

/-- The slices of `TDATA`, `TKEEP` and `TLAST`. -/
structure AxisSlices where
  data : RegsliceBoth DoutT
  keep : RegsliceBoth (BitVec 4)
  last : RegsliceBoth Bool

namespace AxisSlices

open BoundedFifo (Ports)

/-- The slices at power-on. -/
def initial : AxisSlices := ⟨.initial 0, .initial 0, .initial false⟩

/-- `TVALID` and `ack_in` are those of the data slice. -/
def ports (s : AxisSlices) : Ports AxisType where
  ackIn := s.data.ackInT
  out := if s.data.vldOut then some ⟨s.data.dataP1, s.keep.dataP1, s.last.dataP1⟩ else none

/-- One clock edge of the three slices under one handshake. -/
def step (s : AxisSlices) (i : RegsliceIn AxisType) : AxisSlices × Ports AxisType :=
  ({ data := (s.data.step { i with dataIn := i.dataIn.data }).1
     keep := (s.keep.step { i with dataIn := i.dataIn.keep }).1
     last := (s.last.step { i with dataIn := i.dataIn.last }).1 }, s.ports)

/-- One slice of beats, as the slices of their signals. -/
def split (s : RegsliceBoth AxisType) : AxisSlices where
  data := s.map AxisType.data
  keep := s.map AxisType.keep
  last := s.map AxisType.last

/-- The slices of the signals move as one slice of beats. -/
theorem step_split (s : RegsliceBoth AxisType) (i : RegsliceIn AxisType) :
    (split s).step i = (split (s.step i).1, (s.step i).2) := by
  simp only [step, split, RegsliceBoth.step_map]
  rfl

/-- The slices hold the beats `q`, oldest first. -/
def Holds (s : AxisSlices) (q : List AxisType) : Prop :=
  ∃ r : RegsliceBoth AxisType, s = split r ∧ r.Settled ∧ r.contents = q

theorem Holds.length_le {s : AxisSlices} {q : List AxisType} (hs : Holds s q) : q.length ≤ 2 := by
  obtain ⟨r, _, _, rfl⟩ := hs
  cases h : r.state <;> simp [RegsliceBoth.contents, h]

theorem Holds.ackIn {s : AxisSlices} {q : List AxisType} (hs : Holds s q) :
    s.data.ackInT = decide (q.length < 2) := by
  obtain ⟨r, rfl, ⟨hpower, hack⟩, rfl⟩ := hs
  cases h : r.state <;> simp_all [split, RegsliceBoth.map, RegsliceBoth.contents]

theorem Holds.two_iff {s : AxisSlices} {q : List AxisType} (hs : Holds s q) :
    s.data.state = .two ↔ q.length = 2 := by
  obtain ⟨r, rfl, _, rfl⟩ := hs
  cases h : r.state <;> simp [split, RegsliceBoth.map, RegsliceBoth.contents, h]

theorem Holds.apdoneBlk {s : AxisSlices} {q : List AxisType} (hs : Holds s q) (ackOut : Bool) :
    s.data.apdoneBlk ackOut = decide ((if ackOut then q.tail else q) ≠ []) := by
  obtain ⟨r, rfl, ⟨hpower, _⟩, rfl⟩ := hs
  cases h : r.state <;> cases ackOut <;>
    simp_all [split, RegsliceBoth.map, RegsliceBoth.contents, RegsliceBoth.apdoneBlk]

/-- The slices have just been reset. -/
def AfterReset (s : AxisSlices) : Prop :=
  ∃ r : RegsliceBoth AxisType, s = split r ∧ r.AfterReset

theorem afterReset_step (s : AxisSlices) {i : RegsliceIn AxisType} (h : i.apRst = true) :
    AfterReset (s.step i).1 := by
  refine ⟨⟨⟨(s.step i).1.data.dataP1, (s.step i).1.keep.dataP1, (s.step i).1.last.dataP1⟩,
    ⟨(s.step i).1.data.dataP2, (s.step i).1.keep.dataP2, (s.step i).1.last.dataP2⟩, false, .zero⟩, ?_,
    rfl, rfl⟩
  simp [split, RegsliceBoth.map, step, RegsliceBoth.step, h]

theorem step_of_afterReset {s : AxisSlices} (hs : AfterReset s) {i : RegsliceIn AxisType}
    (hrst : i.apRst = false) : (s.step i).2 = ⟨false, none⟩ ∧ Holds (s.step i).1 [] := by
  obtain ⟨r, rfl, hr⟩ := hs
  obtain ⟨hdead, hsettled, hempty⟩ := RegsliceBoth.step_of_afterReset hr hrst
  rw [step_split]
  exact ⟨hdead, _, rfl, hsettled, hempty⟩

theorem step_refines {s : AxisSlices} {q : List AxisType} (hs : Holds s q) {i : RegsliceIn AxisType}
    (hrst : i.apRst = false) :
    Holds (s.step i).1 (BoundedFifo.step 2 q i.toDrive).1 ∧
      (s.step i).2 = (BoundedFifo.step 2 q i.toDrive).2 := by
  obtain ⟨r, rfl, hsettled, rfl⟩ := hs
  obtain ⟨hnext, hcontents, hports⟩ := RegsliceBoth.step_refines hsettled hrst
  rw [step_split]
  exact ⟨⟨_, rfl, hnext, hcontents⟩, hports⟩

/-- The beats handed over in the cycle to a port that a core only drives when it is ready. -/
def pushed (i : RegsliceIn AxisType) : List AxisType := if i.vldIn then [i.dataIn] else []

theorem Holds.step {s : AxisSlices} {q : List AxisType} (hs : Holds s q) {i : RegsliceIn AxisType}
    (hrst : i.apRst = false) (hvld : i.vldIn = true → s.data.ackInT = true) :
    Holds (s.step i).1 ((if i.ackOut then q.tail else q) ++ pushed i) ∧
      q ++ pushed i = BoundedFifo.given i.toDrive s.ports ++ ((if i.ackOut then q.tail else q) ++ pushed i) := by
  obtain ⟨hholds, hports⟩ := step_refines hs hrst
  have htaken : BoundedFifo.taken i.toDrive (s.step i).2 = pushed i := by
    by_cases h : i.vldIn = true
    · simp [BoundedFifo.taken, pushed, AxisSlices.step, ports, h, hvld h]
    · simp [BoundedFifo.taken, pushed, h]
  have hnext : (BoundedFifo.step 2 q i.toDrive).1 = (if i.ackOut then q.tail else q) ++ pushed i := by
    rw [← htaken, hports]
    rfl
  have hconserve := BoundedFifo.step_conserves (n := 2) q i.toDrive
  rw [← hports, htaken, hnext] at hconserve
  exact ⟨hnext ▸ hholds, hconserve⟩

theorem step_quiet {s : AxisSlices} (hs : AfterReset s ∨ Holds s []) {i : RegsliceIn AxisType}
    (hrst : i.apRst = false) (hvld : i.vldIn = false) :
    Holds (s.step i).1 [] ∧ BoundedFifo.given i.toDrive s.ports = [] := by
  have hnone : pushed i = [] := by simp [pushed, hvld]
  rcases hs with hs | hs
  · obtain ⟨hports, hholds⟩ := step_of_afterReset hs hrst
    refine ⟨hholds, ?_⟩
    change s.ports = _ at hports
    simp [BoundedFifo.given, hports]
  · obtain ⟨hholds, hconserve⟩ := hs.step hrst (by simp [hvld])
    rw [hnone] at hholds hconserve
    obtain ⟨hgiven, hrest⟩ := List.append_eq_nil_iff.mp hconserve.symm
    rw [hrest] at hholds
    exact ⟨hholds, hgiven⟩

theorem Holds.drained {s : AxisSlices} {q : List AxisType} (hs : Holds s q) {i : RegsliceIn AxisType}
    (hrst : i.apRst = false) (hvld : i.vldIn = false) (hdone : s.data.apdoneBlk i.ackOut = false) :
    Holds (s.step i).1 [] ∧ q = BoundedFifo.given i.toDrive s.ports := by
  obtain ⟨hnext, hconserve⟩ := hs.step hrst (by simp [hvld])
  have hempty : (if i.ackOut then q.tail else q) = [] := by
    rw [hs.apdoneBlk] at hdone
    simpa using hdone
  have hnone : pushed i = [] := by simp [pushed, hvld]
  rw [hempty, hnone, List.append_nil] at hnext
  rw [hempty, hnone, List.append_nil, List.append_nil, List.append_nil] at hconserve
  exact ⟨hnext, hconserve⟩

/-! ### How long a core waits for the port -/

/-- The cycles of a ready sink after which a port that is handed nothing is known to be empty: two for two
beats, one for fewer. -/
def drainCycles (s : AxisSlices) : ℕ := if s.data.state = .two then 2 else 1

/-- A beat is offered and not taken. -/
def stalled (s : AxisSlices) (ackOut : Bool) : Bool := s.data.vldOut && !ackOut

theorem drainCycles_pos (s : AxisSlices) : 1 ≤ s.drainCycles := by
  unfold drainCycles
  split_ifs <;> omega

theorem drainCycles_le (s : AxisSlices) : s.drainCycles ≤ 2 := by
  unfold drainCycles
  split_ifs <;> omega

theorem Holds.drainCycles_eq {s : AxisSlices} {q : List AxisType} (hs : Holds s q) :
    s.drainCycles = if q.length = 2 then 2 else 1 := by
  simp only [drainCycles, hs.two_iff]

theorem Holds.stalled_iff {s : AxisSlices} {q : List AxisType} (hs : Holds s q) (ackOut : Bool) :
    s.stalled ackOut = true ↔ q ≠ [] ∧ ackOut = false := by
  obtain ⟨r, rfl, ⟨hpower, _⟩, rfl⟩ := hs
  cases h : r.state <;>
    simp_all [stalled, split, RegsliceBoth.map, RegsliceBoth.vldOut, RegsliceBoth.contents, RegsliceState.code]

/-- A port that a core is still waiting for comes one cycle closer to being empty, unless it is stalled. -/
theorem Holds.drain {s : AxisSlices} {q : List AxisType} (hs : Holds s q) {i : RegsliceIn AxisType}
    (hrst : i.apRst = false) (hvld : i.vldIn = false)
    (hwait : s.data.apdoneBlk i.ackOut = true ∨ s.data.ackInT = false) :
    drainCycles (s.step i).1 + 1 ≤ drainCycles s + if s.stalled i.ackOut then 1 else 0 := by
  have hnext := (hs.step hrst (by simp [hvld])).1
  have hnone : pushed i = [] := by simp [pushed, hvld]
  rw [hnone, List.append_nil] at hnext
  have hleft : (if i.ackOut then q.tail else q) ≠ [] := by
    rcases hwait with hblk | hfull
    · rw [hs.apdoneBlk] at hblk
      exact of_decide_eq_true hblk
    · -- a full slice cannot be emptied in one cycle
      rw [hs.ackIn, decide_eq_false_iff_not] at hfull
      apply List.ne_nil_of_length_pos
      split_ifs
      · rw [List.length_tail]
        omega
      · omega
  have hlen := hs.length_le
  have hpos := List.length_pos_of_ne_nil hleft
  rw [hnext.drainCycles_eq, hs.drainCycles_eq]
  by_cases hready : i.ackOut = true
  · simp only [hready, if_true, List.length_tail] at hpos ⊢
    split_ifs <;> omega
  · have hready' : i.ackOut = false := by simpa using hready
    rw [if_neg hready] at hleft ⊢
    rw [if_pos ((hs.stalled_iff _).mpr ⟨hleft, hready'⟩)]

/-- Behind one beat at most, a word handed over leaves in one cycle more than it waits. -/
theorem Holds.drain_push {s : AxisSlices} {q : List AxisType} (hs : Holds s q) (hlen : q.length ≤ 1)
    {i : RegsliceIn AxisType} (hrst : i.apRst = false) :
    drainCycles (s.step i).1 ≤ 1 + if s.stalled i.ackOut then 1 else 0 := by
  have hready : s.data.ackInT = true := by
    rw [hs.ackIn, decide_eq_true_eq]
    omega
  have hnext := (hs.step hrst fun _ => hready).1
  have hpushed : (pushed i).length ≤ 1 := by
    unfold pushed
    split_ifs <;> simp
  rw [hnext.drainCycles_eq, List.length_append]
  by_cases hstalled : s.stalled i.ackOut = true
  · rw [if_pos hstalled]
    split_ifs <;> omega
  · have hempty : (if i.ackOut then q.tail else q).length = 0 := by
      rw [hs.stalled_iff] at hstalled
      split_ifs with hack
      · rw [List.length_tail]
        omega
      · have hnil : q = [] := by
          by_contra hne
          exact hstalled ⟨hne, by simpa using hack⟩
        rw [hnil, List.length_nil]
    rw [if_neg hstalled, hempty, if_neg (by omega)]

/-! ### The words of a call -/

section Call

variable {σ α : Type*} (f : σ → α → σ × List AxisType) (s₀ : σ)

/-- The words `pushed` of the call under way have been handed to the port: some are in its slices, the
others have left the core. -/
def Pushed (s : AxisSlices) (t : CallTrace α AxisType) (pushed : List AxisType) : Prop :=
  ∃ q, s.Holds q ∧ t.Pushed f s₀ q pushed

variable {f s₀} {s : AxisSlices} {t : CallTrace α AxisType} {e : CallEvent α AxisType}
  {i : RegsliceIn AxisType} {words rest : List AxisType} {a : α}

theorem Pushed.step (h : Pushed f s₀ s t words) (hrst : i.apRst = false)
    (hvld : i.vldIn = true → s.data.ackInT = true) (hends : e.ends = false)
    (hdelivers : e.delivers = BoundedFifo.given i.toDrive s.ports) :
    Pushed f s₀ (s.step i).1 (t.record e) (words ++ pushed i) := by
  obtain ⟨q, hholds, hpushed⟩ := h
  obtain ⟨hholds', hconserve⟩ := hholds.step hrst hvld
  exact ⟨_, hholds', hpushed.record hends (hdelivers ▸ hconserve)⟩

theorem Pushed.holds (h : Pushed f s₀ s t words) : ∃ q, s.Holds q ∧ q.length ≤ words.length := by
  obtain ⟨q, hholds, hpushed⟩ := h
  exact ⟨q, hholds, hpushed.length_le⟩

theorem Pushed.ackIn (h : Pushed f s₀ s t words) (hlen : words.length ≤ 1) : s.data.ackInT = true := by
  obtain ⟨q, hholds, hq⟩ := h.holds
  rw [hholds.ackIn, decide_eq_true_eq]
  omega

theorem Pushed.agrees (h : Pushed f s₀ s t words) (hcurrent : t.current = some a)
    (hrest : words ++ rest = (f (CallTrace.statics f s₀ t.finished) a).2) : t.Agrees f s₀ := by
  obtain ⟨q, _, hpushed⟩ := h
  exact hpushed.agrees hcurrent hrest

theorem Pushed.end (h : Pushed f s₀ s t (f (CallTrace.statics f s₀ t.finished) a).2)
    (hcurrent : t.current = some a) (hrst : i.apRst = false) (hvld : i.vldIn = false)
    (hdone : s.data.apdoneBlk i.ackOut = false) (hends : e.ends = true)
    (hdelivers : e.delivers = BoundedFifo.given i.toDrive s.ports) :
    Holds (s.step i).1 [] ∧
      (t.record e).delivered = CallTrace.emitted f s₀ (t.record e).finished := by
  obtain ⟨q, hholds, hbeats⟩ := h
  obtain ⟨hholds', hlast⟩ := hholds.drained hrst hvld hdone
  exact ⟨hholds', hbeats.record_end hcurrent hends (hdelivers ▸ hlast)⟩

end Call

end AxisSlices

end FpgaLabor
