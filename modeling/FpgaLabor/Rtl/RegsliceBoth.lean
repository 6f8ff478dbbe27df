import FpgaLabor.Base.BoundedFifo

/-!
# The output register slice `regslice_both`

The two-register slice between a core and its AXI stream port. `step` is one clock edge, with the
signals of the module as functions of the registers and inputs. From the second cycle after a reset on
the slice is, port for port, the buffer with two places (`regslice_refines_fifo`): the second register
exists so that `ack_in` can be a register of its own and still lose nothing.
-/

namespace FpgaLabor

/-- The values of `state`: `ZERO`, `ONE`, `TWO`, and the value before the first clock edge. -/
inductive RegsliceState
  | powerOn
  | zero
  | one
  | two
deriving DecidableEq, Repr

/-- The encodings: `00` at power-on, `ZERO = 10`, `ONE = 11`, `TWO = 01`. -/
def RegsliceState.code : RegsliceState → BitVec 2
  | .powerOn => 0b00
  | .zero => 0b10
  | .one => 0b11
  | .two => 0b01

/-- The registers. -/
structure RegsliceBoth (α : Type*) where
  dataP1 : α
  dataP2 : α
  ackInT : Bool
  state : RegsliceState

/-- The inputs of one cycle. -/
structure RegsliceIn (α : Type*) extends BoundedFifo.Drive α where
  apRst : Bool

namespace RegsliceBoth

open BoundedFifo (Drive Ports)

variable {α β : Type*}

/-- `vld_out = state[0]`. -/
def vldOut (s : RegsliceBoth α) : Bool := s.state.code.getLsbD 0

/-- `apdone_blk`: a word is still waiting to leave. -/
def apdoneBlk (s : RegsliceBoth α) (ackOut : Bool) : Bool :=
  (s.state == .one && !ackOut) || s.state == .two

/-- `next`. -/
def next (s : RegsliceBoth α) (vldIn ackOut : Bool) : RegsliceState :=
  match s.state with
  | .zero => if vldIn && s.ackInT then .one else .zero
  | .one => if !vldIn && ackOut then .zero else if vldIn && !ackOut then .two else .one
  | .two => if ackOut then .one else .two
  | .powerOn => .zero

/-- `load_p1`. -/
def loadP1 (s : RegsliceBoth α) (vldIn ackOut : Bool) : Bool :=
  (s.state == .zero && vldIn) || (s.state == .one && vldIn && ackOut) || (s.state == .two && ackOut)

/-- What the slice drives on its ports. -/
def ports (s : RegsliceBoth α) : Ports α where
  ackIn := s.ackInT
  out := if s.vldOut then some s.dataP1 else none

/-- One clock edge. -/
def step (s : RegsliceBoth α) (i : RegsliceIn α) : RegsliceBoth α × Ports α :=
  let nxt := s.next i.vldIn i.ackOut
  ({ dataP1 :=
      if s.loadP1 i.vldIn i.ackOut then (if s.state == .two then s.dataP2 else i.dataIn) else s.dataP1
     dataP2 := if i.vldIn && s.ackInT then i.dataIn else s.dataP2
     ackInT :=
      if i.apRst then false
      else if s.state == .zero then true
      else if s.state == .one && nxt == .two then false
      else if s.state == .two && nxt == .one then true
      else s.ackInT
     state := if i.apRst then .zero else nxt }, s.ports)

/-- The words in the slice, oldest first. -/
def contents (s : RegsliceBoth α) : List α :=
  match s.state with
  | .powerOn => []
  | .zero => []
  | .one => [s.dataP1]
  | .two => [s.dataP1, s.dataP2]

/-- `ack_in_t` is low exactly when both registers are taken. -/
def Settled (s : RegsliceBoth α) : Prop :=
  s.state ≠ .powerOn ∧ s.ackInT = decide (s.state ≠ .two)

/-- What a reset leaves: no word, and `ack_in_t` low for one cycle more. -/
def AfterReset (s : RegsliceBoth α) : Prop := s.state = .zero ∧ s.ackInT = false

theorem afterReset_step (s : RegsliceBoth α) {i : RegsliceIn α} (h : i.apRst = true) :
    AfterReset (s.step i).1 := by
  simp [AfterReset, step, h]

theorem step_of_afterReset {s : RegsliceBoth α} (hs : AfterReset s) {i : RegsliceIn α}
    (hrst : i.apRst = false) :
    (s.step i).2 = ⟨false, none⟩ ∧ Settled (s.step i).1 ∧ contents (s.step i).1 = [] := by
  obtain ⟨hstate, hack⟩ := hs
  simp [step, ports, vldOut, next, Settled, contents, hstate, hack, hrst, RegsliceState.code]

theorem step_refines {s : RegsliceBoth α} (hs : Settled s) {i : RegsliceIn α} (hrst : i.apRst = false) :
    Settled (s.step i).1 ∧ contents (s.step i).1 = (BoundedFifo.step 2 (contents s) i.toDrive).1 ∧
      (s.step i).2 = (BoundedFifo.step 2 (contents s) i.toDrive).2 := by
  obtain ⟨dataP1, dataP2, ackInT, state⟩ := s
  obtain ⟨⟨dataIn, vldIn, ackOut⟩, apRst⟩ := i
  obtain ⟨hpower, hack⟩ := hs
  dsimp only at hpower hack hrst
  subst hrst
  cases state with
  | powerOn => exact absurd rfl hpower
  | zero =>
    obtain rfl : ackInT = true := hack
    cases vldIn <;> cases ackOut <;>
      simp [step, ports, vldOut, next, loadP1, Settled, contents, RegsliceState.code, BoundedFifo.step,
        BoundedFifo.taken]
  | one =>
    obtain rfl : ackInT = true := hack
    cases vldIn <;> cases ackOut <;>
      simp [step, ports, vldOut, next, loadP1, Settled, contents, RegsliceState.code, BoundedFifo.step,
        BoundedFifo.taken]
  | two =>
    obtain rfl : ackInT = false := hack
    cases vldIn <;> cases ackOut <;>
      simp [step, ports, vldOut, next, loadP1, Settled, contents, RegsliceState.code, BoundedFifo.step,
        BoundedFifo.taken]

/-- **The slice is a buffer with two places.** After a reset there is one dead cycle; from then on,
as long as there is no further reset, the ports are those of the buffer with two places, empty at
first, whatever the registers held before the reset and whatever the two sides do. So every word that has
been handed over has been handed on or is in the slice. -/
theorem regslice_refines_fifo (s : RegsliceBoth α) {r i : RegsliceIn α} {is : List (RegsliceIn α)}
    (hr : r.apRst = true) (hi : i.apRst = false) (his : ∀ j ∈ is, j.apRst = false) :
    Mealy.outputs step (s.step r).1 (i :: is) =
      ⟨false, none⟩ :: Mealy.outputs (BoundedFifo.step 2) [] (is.map (·.toDrive)) ∧
    BoundedFifo.allTaken ((i :: is).map (·.toDrive)) (Mealy.outputs step (s.step r).1 (i :: is)) =
      BoundedFifo.allGiven ((i :: is).map (·.toDrive)) (Mealy.outputs step (s.step r).1 (i :: is)) ++
        contents (Mealy.runState step (s.step r).1 (i :: is)) := by
  obtain ⟨hdead, hsettled, hempty⟩ := step_of_afterReset (afterReset_step s hr) hi
  have hstep : ∀ (t : RegsliceBoth α) q (j : RegsliceIn α), (Settled t ∧ contents t = q) → j.apRst = false →
      (Settled (t.step j).1 ∧ contents (t.step j).1 = (BoundedFifo.step 2 q j.toDrive).1) ∧
        (t.step j).2 = (BoundedFifo.step 2 q j.toDrive).2 := by
    rintro t q j ⟨ht, rfl⟩ hj
    obtain ⟨hnext, hcontents, hports⟩ := step_refines ht hj
    exact ⟨⟨hnext, hcontents⟩, hports⟩
  have houtputs := Mealy.outputs_eq_of_rel step (BoundedFifo.step 2) (fun j => j.toDrive) hstep
    ⟨hsettled, hempty⟩ his
  have hpairs : List.Forall₂ (fun j d => d = j.toDrive ∧ j.apRst = false) is (is.map (·.toDrive)) := by
    rw [List.forall₂_map_right_iff, List.forall₂_same]
    exact fun j hj => ⟨rfl, his j hj⟩
  have hfinal := Mealy.runState_rel step (BoundedFifo.step 2) (R := fun t q => Settled t ∧ contents t = q)
    (fun t q j d ht hj => by rw [hj.1]; exact (hstep t q j ht hj.2).1) ⟨hsettled, hempty⟩ hpairs
  have hconserves := BoundedFifo.run_conserves (n := 2) [] (is.map (·.toDrive))
  rw [Mealy.outputs_cons, hdead, houtputs]
  refine ⟨rfl, ?_⟩
  rw [List.map_cons, BoundedFifo.allTaken_cons, BoundedFifo.allGiven_cons, Mealy.runState_cons, hfinal.2]
  simpa [BoundedFifo.taken, BoundedFifo.given] using hconserves

/-- The registers at power-on, the data cleared. -/
def initial (a : α) : RegsliceBoth α := ⟨a, a, false, .powerOn⟩

/-- Three words, to a consumer that takes what it is shown. -/
def threeWords : List (RegsliceIn ℕ) := ([3, 5, 7] : List ℕ).map fun a => ⟨⟨a, true, true⟩, false⟩

theorem regslice_refines_fifo_three_words :
    Mealy.outputs step ((initial 0).step ⟨⟨0, false, false⟩, true⟩).1 (⟨⟨3, true, true⟩, false⟩ :: threeWords) =
      ⟨false, none⟩ :: Mealy.outputs (BoundedFifo.step 2) [] (threeWords.map (·.toDrive)) ∧
    BoundedFifo.allTaken ((⟨⟨3, true, true⟩, false⟩ :: threeWords : List (RegsliceIn ℕ)).map (·.toDrive))
        (Mealy.outputs step ((initial 0).step ⟨⟨0, false, false⟩, true⟩).1
          (⟨⟨3, true, true⟩, false⟩ :: threeWords)) =
      BoundedFifo.allGiven ((⟨⟨3, true, true⟩, false⟩ :: threeWords : List (RegsliceIn ℕ)).map (·.toDrive))
          (Mealy.outputs step ((initial 0).step ⟨⟨0, false, false⟩, true⟩).1
            (⟨⟨3, true, true⟩, false⟩ :: threeWords)) ++
        contents (Mealy.runState step ((initial 0).step ⟨⟨0, false, false⟩, true⟩).1
          (⟨⟨3, true, true⟩, false⟩ :: threeWords)) :=
  regslice_refines_fifo (initial 0) rfl rfl (by simp [threeWords])

/-! ### The data path -/

/-- The slice with `f` applied to its data registers. -/
def map (f : α → β) (s : RegsliceBoth α) : RegsliceBoth β :=
  { dataP1 := f s.dataP1, dataP2 := f s.dataP2, ackInT := s.ackInT, state := s.state }

theorem step_map (f : α → β) (s : RegsliceBoth α) (i : RegsliceIn α) :
    ((s.map f).step { i with dataIn := f i.dataIn }).1 = (s.step i).1.map f := by
  have hnext : (s.map f).next i.vldIn i.ackOut = s.next i.vldIn i.ackOut := rfl
  have hload : (s.map f).loadP1 i.vldIn i.ackOut = s.loadP1 i.vldIn i.ackOut := rfl
  simp only [step, hnext, hload]
  simp only [map, apply_ite f]
  rfl

end RegsliceBoth

end FpgaLabor
