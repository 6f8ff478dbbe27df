import FpgaLabor.Base.Mealy

/-!
# A first-in first-out buffer between two handshakes

`step n` is one clock cycle of a buffer with `n` places between a producer (`dataIn`, `vldIn`, answered
by `ackIn`) and a consumer (`out`, taken with `ackOut`). Both answers are read off the contents at the
start of the cycle: the buffer takes a word exactly when it has room for it and offers its oldest word
whenever it has one. Whatever the two sides do, nothing is lost, made up or reordered (`run_conserves`).
-/

namespace FpgaLabor.BoundedFifo

variable {α : Type*} {n : ℕ}

/-- What the two sides drive in one cycle. -/
structure Drive (α : Type*) where
  dataIn : α
  vldIn : Bool
  ackOut : Bool

/-- What the buffer drives in one cycle; `out` is `none` while `vld_out` is low. -/
structure Ports (α : Type*) where
  ackIn : Bool
  out : Option α

/-- The word handed over by the producer in a cycle, if any. -/
def taken (i : Drive α) (o : Ports α) : List α := if i.vldIn && o.ackIn then [i.dataIn] else []

/-- The word handed over to the consumer in a cycle, if any. -/
def given (i : Drive α) (o : Ports α) : List α := if i.ackOut then o.out.toList else []

/-- One cycle of the buffer with `n` places. -/
def step (n : ℕ) (q : List α) (i : Drive α) : List α × Ports α :=
  let o : Ports α := { ackIn := decide (q.length < n), out := q.head? }
  ((if i.ackOut then q.tail else q) ++ taken i o, o)

/-- All words handed over by the producer in a run. -/
def allTaken (is : List (Drive α)) (os : List (Ports α)) : List α := (List.zipWith taken is os).flatten

/-- All words handed over to the consumer in a run. -/
def allGiven (is : List (Drive α)) (os : List (Ports α)) : List α := (List.zipWith given is os).flatten

@[simp] theorem allTaken_nil : allTaken ([] : List (Drive α)) [] = [] := rfl

@[simp] theorem allGiven_nil : allGiven ([] : List (Drive α)) [] = [] := rfl

@[simp] theorem allTaken_cons (i : Drive α) (is : List (Drive α)) (o : Ports α) (os : List (Ports α)) :
    allTaken (i :: is) (o :: os) = taken i o ++ allTaken is os := rfl

@[simp] theorem allGiven_cons (i : Drive α) (is : List (Drive α)) (o : Ports α) (os : List (Ports α)) :
    allGiven (i :: is) (o :: os) = given i o ++ allGiven is os := rfl

theorem step_conserves (q : List α) (i : Drive α) :
    q ++ taken i (step n q i).2 = given i (step n q i).2 ++ (step n q i).1 := by
  unfold step given
  cases i.ackOut <;> cases q <;> simp

/-- **Conservation.** What was in the buffer, followed by everything the producer handed over, is
everything the consumer took, followed by what is still in the buffer. -/
theorem run_conserves (q : List α) (is : List (Drive α)) :
    q ++ allTaken is (Mealy.outputs (step n) q is) =
      allGiven is (Mealy.outputs (step n) q is) ++ Mealy.runState (step n) q is := by
  induction is generalizing q with
  | nil => simp
  | cons i is ih =>
    rw [Mealy.outputs_cons, allTaken_cons, allGiven_cons, Mealy.runState_cons, ← List.append_assoc,
      step_conserves, List.append_assoc, List.append_assoc, ih]

end FpgaLabor.BoundedFifo
