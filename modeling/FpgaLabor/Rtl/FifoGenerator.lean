import FpgaLabor.Base.BoundedFifo

/-!
# The sample FIFOs of the block design

Of `fifo_generator_1` and `fifo_generator_2` the sources have the settings only: one clock, first word
fall-through, a `valid` flag. So a FIFO is here any machine with these ports, and `Lawful` is what its
documentation says of them: `valid` shows the oldest word, `rd_en` takes it, and a word written after the
reset period into a FIFO with room is not lost. How long a word takes to fall through is left open.
-/

namespace FpgaLabor

open BoundedFifo (Drive)

/-- A `fifo_generator` with first word fall-through: what it holds after a reset and after a clock edge, the
words written and not yet read, and its outputs. -/
structure FifoGenerator (α : Type) where
  State : Type
  afterReset : State
  posedge : State → Drive α → State
  contents : State → List α
  wrRstBusy : State → Bool
  valid : State → Bool
  dout : State → α

namespace FifoGenerator

variable {α : Type} (F : FifoGenerator α)

/-- The word that a cycle reads. -/
def given (s : F.State) (i : Drive α) : List α := if i.ackOut && F.valid s then [F.dout s] else []

/-- A word has been written and has not fallen through. -/
def falling (s : F.State) : Bool := !(F.contents s).isEmpty && !F.valid s

/-- The FIFO is empty after a reset, shows its oldest word when `valid`, and takes every word that is written
while it has room, once the reset period is over. -/
structure Lawful (depth : ℕ) : Prop where
  afterReset : F.contents F.afterReset = []
  dout : ∀ s, F.valid s = true → (F.contents s).head? = some (F.dout s)
  posedge : ∀ s i, (i.vldIn = true → F.wrRstBusy s = false ∧ (F.contents s).length < depth) →
    F.contents (F.posedge s i) =
      (if i.ackOut && F.valid s then (F.contents s).tail else F.contents s) ++ if i.vldIn then [i.dataIn] else []
  wrRstBusy : ∀ s i, F.wrRstBusy s = false → F.wrRstBusy (F.posedge s i) = false

variable {F} {depth : ℕ} {s : F.State} {i : Drive α}

theorem Lawful.conserves (h : F.Lawful depth)
    (hwrite : i.vldIn = true → F.wrRstBusy s = false ∧ (F.contents s).length < depth) :
    F.given s i ++ F.contents (F.posedge s i) = F.contents s ++ if i.vldIn then [i.dataIn] else [] := by
  rw [h.posedge s i hwrite, given, ← List.append_assoc]
  congr 1
  by_cases hread : (i.ackOut && F.valid s) = true
  · have hhead := h.dout s (Bool.and_eq_true_iff.mp hread).2
    rw [if_pos hread, if_pos hread, List.singleton_append]
    exact (List.eq_cons_of_mem_head? hhead).symm
  · rw [if_neg hread, if_neg hread, List.nil_append]

theorem Lawful.kept (h : F.Lawful depth) {gave offered : List α}
    (hwrite : i.vldIn = true → F.wrRstBusy s = false ∧ (F.contents s).length < depth)
    (hkept : gave ++ F.contents s = offered) :
    gave ++ F.given s i ++ F.contents (F.posedge s i) = offered ++ if i.vldIn then [i.dataIn] else [] := by
  rw [List.append_assoc, h.conserves hwrite, ← List.append_assoc, hkept]

theorem Lawful.not_valid (h : F.Lawful depth) (hempty : F.contents s = []) : F.valid s = false := by
  by_contra hvalid
  have hhead := h.dout s (by simpa using hvalid)
  rw [hempty] at hhead
  cases hhead

/-- The bounded buffer is one, without a reset period and without a delay. -/
def ofBuffer (depth : ℕ) (a : α) : FifoGenerator α where
  State := List α
  afterReset := []
  posedge q i := (BoundedFifo.step depth q i).1
  contents q := q
  wrRstBusy _ := false
  valid q := !q.isEmpty
  dout q := q.headD a

theorem lawful_ofBuffer (depth : ℕ) (a : α) : (ofBuffer depth a).Lawful depth where
  afterReset := rfl
  dout := by
    intro q hq
    cases q with
    | nil => cases hq
    | cons w q => rfl
  posedge := by
    intro q i hwrite
    have htaken : BoundedFifo.taken i (BoundedFifo.step depth q i).2 = if i.vldIn then [i.dataIn] else [] := by
      by_cases hvld : i.vldIn = true
      · have hroom : q.length < depth := (hwrite hvld).2
        simp [BoundedFifo.taken, BoundedFifo.step, hvld, hroom]
      · simp [BoundedFifo.taken, hvld]
    have htail : (if i.ackOut && !q.isEmpty then q.tail else q) = if i.ackOut then q.tail else q := by
      cases q <;> simp
    change (if i.ackOut then q.tail else q) ++ BoundedFifo.taken i (BoundedFifo.step depth q i).2 = _
    rw [htaken, ← htail]
    rfl
  wrRstBusy _ _ _ := rfl

end FifoGenerator

end FpgaLabor
