import FpgaLabor.Base.Mealy

/-!
# Calls spread over cycles

A function with static variables that is called over and over, one call at a time, by a machine that takes
many cycles for each. `CallTrace` is what an observer of the machine writes down: the calls that have ended,
the one under way, whose arguments may still be completed while it runs, and what has been delivered.
`Pushed` relates it to the function while a call is under way, and `RunsAs` says that the machine has run as
the function does, which every `CallMachine` does after every run.
-/

namespace FpgaLabor

/-- The calls of a run, the last one apart while it is under way, and what has been delivered. -/
structure CallTrace (α β : Type*) where
  finished : List α
  current : Option α
  delivered : List β

/-- What a cycle adds: the call that begins in it, what it makes of the arguments of the one under way,
whether it ends it, and what it delivers. -/
structure CallEvent (α β : Type*) where
  begins : Option α
  completes : α → α
  ends : Bool
  delivers : List β

namespace CallTrace

variable {σ α β γ : Type*}

/-- Nothing recorded yet. -/
def empty : CallTrace α β := ⟨[], none, []⟩

/-- All calls so far. -/
def calls (t : CallTrace α β) : List α := t.finished ++ t.current.toList

/-- The record after a cycle. -/
def record (t : CallTrace α β) (e : CallEvent α β) : CallTrace α β where
  finished := if e.ends then t.calls else t.finished
  current :=
    if e.begins.isSome then e.begins
    else if e.ends then none
    else t.current.map e.completes
  delivered := t.delivered ++ e.delivers

/-- The cycles take turns: a call begins when none is under way, and not in the cycle that ends one. -/
def Sequential (t : CallTrace α β) (e : CallEvent α β) : Prop :=
  e.begins.isSome → t.current = none ∧ e.ends = false

theorem calls_record_of_begins {t : CallTrace α β} {e : CallEvent α β} (h : t.Sequential e) {a : α}
    (hbegins : e.begins = some a) : (t.record e).calls = t.calls ++ [a] := by
  obtain ⟨hcurrent, hends⟩ := h (by simp [hbegins])
  simp [calls, record, hbegins, hcurrent, hends]

theorem calls_record_of_none {t : CallTrace α β} {e : CallEvent α β} (hbegins : e.begins = none) :
    (t.record e).calls = t.finished ++ (t.current.map (if e.ends then id else e.completes)).toList := by
  by_cases hends : e.ends = true <;> simp [calls, record, hbegins, hends]

/-- What the machine is given with a call, and does not complete later, is seen in the calls in order. -/
theorem map_calls_record {t : CallTrace α β} {e : CallEvent α β} (input : α → γ) (h : t.Sequential e)
    (hcompletes : ∀ a, input (e.completes a) = input a) :
    (t.record e).calls.map input = t.calls.map input ++ e.begins.toList.map input := by
  cases hbegins : e.begins with
  | some a =>
    rw [calls_record_of_begins h hbegins, List.map_append]
    rfl
  | none =>
    rw [calls_record_of_none hbegins, calls]
    cases t.current with
    | none => simp
    | some c => split_ifs <;> simp [hcompletes]

theorem forall_calls_record {t : CallTrace α β} {e : CallEvent α β} {Q : α → Prop} {n : ℕ} (h : t.Sequential e)
    (hbegins : ∀ a, e.begins = some a → Q a) (hcompletes : ∀ a, Q a → Q (e.completes a))
    (hn : n ≤ t.calls.length) (hcalls : ∀ a ∈ t.calls.drop n, Q a) :
    n ≤ (t.record e).calls.length ∧ ∀ a ∈ (t.record e).calls.drop n, Q a := by
  cases hb : e.begins with
  | some a =>
    rw [calls_record_of_begins h hb, List.drop_append_of_le_length hn]
    refine ⟨?_, ?_⟩
    · rw [List.length_append]
      omega
    · simp only [List.mem_append, List.mem_singleton]
      rintro b (hb' | rfl)
      · exact hcalls b hb'
      · exact hbegins b hb
  | none =>
    rw [calls_record_of_none hb]
    unfold calls at hn hcalls
    cases hcurrent : t.current with
    | none =>
      rw [hcurrent] at hn hcalls
      exact ⟨hn, hcalls⟩
    | some c =>
      simp only [hcurrent, Option.toList_some, Option.map_some, List.length_append,
        List.length_singleton] at hn hcalls ⊢
      refine ⟨hn, ?_⟩
      by_cases hlast : n ≤ t.finished.length
      · rw [List.drop_append_of_le_length hlast] at hcalls ⊢
        intro b hb'
        rcases List.mem_append.mp hb' with hb' | hb'
        · exact hcalls b (List.mem_append_left _ hb')
        · have hc := hcalls c (List.mem_append_right _ (List.mem_singleton_self c))
          rw [List.mem_singleton.mp hb']
          split_ifs
          · exact hc
          · exact hcompletes c hc
      · rw [List.drop_eq_nil_of_le (by rw [List.length_append, List.length_singleton]; omega)]
        simp

section Function

variable (f : σ → α → σ × List β) (s₀ : σ)

/-- The static variables after the calls `as`. -/
def statics (as : List α) : σ := Mealy.runState f s₀ as

/-- What the calls `as` return, joined. -/
def emitted (as : List α) : List β := (Mealy.outputs f s₀ as).flatten

theorem statics_concat (as : List α) (a : α) : statics f s₀ (as ++ [a]) = (f (statics f s₀ as) a).1 :=
  Mealy.runState_concat f _ _ _

theorem emitted_concat (as : List α) (a : α) :
    emitted f s₀ (as ++ [a]) = emitted f s₀ as ++ (f (statics f s₀ as) a).2 := by
  simp [emitted, Mealy.outputs_append, statics]

/-- The call under way has produced `pushed`: the machine still holds `held` of it, and the rest has been
delivered, after what the finished calls return. -/
structure Pushed (t : CallTrace α β) (held pushed : List β) : Prop where
  kept : emitted f s₀ t.finished <+: t.delivered
  split : t.delivered ++ held = emitted f s₀ t.finished ++ pushed

/-- The machine has run as the function: what has been delivered is what the calls return, in order, all
but what the call under way still owes. -/
structure Agrees (t : CallTrace α β) : Prop where
  kept : emitted f s₀ t.finished <+: t.delivered
  produced : t.delivered <+: emitted f s₀ t.calls

/-- The whole of it: the calls take `inputs`, in order, and a machine at rest owes nothing. -/
structure RunsAs (input : α → γ) (t : CallTrace α β) (inputs : List γ) (rest : Prop) : Prop
    extends Agrees f s₀ t where
  inputs : t.calls.map input = inputs
  settled : rest → t.delivered = emitted f s₀ t.calls

variable {f s₀} {t : CallTrace α β} {e : CallEvent α β} {held held' pushed more : List β} {a : α}

theorem Pushed.nil (h : t.delivered = emitted f s₀ t.finished) : Pushed f s₀ t [] [] :=
  ⟨h ▸ List.prefix_refl _, by rw [h]⟩

theorem Pushed.length_le (h : Pushed f s₀ t held pushed) : held.length ≤ pushed.length := by
  have hsplit := congrArg List.length h.split
  have hkept := h.kept.length_le
  simp only [List.length_append] at hsplit
  omega

theorem Pushed.record (h : Pushed f s₀ t held pushed) (hends : e.ends = false)
    (hheld : held ++ more = e.delivers ++ held') : Pushed f s₀ (t.record e) held' (pushed ++ more) := by
  have hfin : (t.record e).finished = t.finished := by simp [CallTrace.record, hends]
  refine ⟨?_, ?_⟩
  · rw [hfin]
    exact h.kept.trans (List.prefix_append _ _)
  · rw [hfin]
    unfold CallTrace.record
    rw [List.append_assoc, ← hheld, ← List.append_assoc, h.split, List.append_assoc]

theorem Pushed.record_end (h : Pushed f s₀ t held (f (statics f s₀ t.finished) a).2)
    (hcurrent : t.current = some a) (hends : e.ends = true) (hheld : held = e.delivers) :
    (t.record e).delivered = emitted f s₀ (t.record e).finished := by
  have hfin : (t.record e).finished = t.finished ++ [a] := by
    simp [CallTrace.record, hends, calls, hcurrent]
  rw [hfin, emitted_concat, ← h.split, hheld]
  rfl

theorem Pushed.agrees {rest : List β} (h : Pushed f s₀ t held pushed) (hcurrent : t.current = some a)
    (hrest : pushed ++ rest = (f (statics f s₀ t.finished) a).2) : Agrees f s₀ t := by
  refine ⟨h.kept, ?_⟩
  rw [calls, hcurrent, Option.toList_some, emitted_concat, ← hrest, ← List.append_assoc, ← h.split,
    List.append_assoc]
  exact List.prefix_append _ _

theorem calls_of_none (hcurrent : t.current = none) : t.calls = t.finished := by simp [calls, hcurrent]

theorem agrees_of_none (hcurrent : t.current = none) (h : t.delivered = emitted f s₀ t.finished) :
    Agrees f s₀ t := by
  refine ⟨?_, ?_⟩
  · exact h ▸ List.prefix_refl _
  · rw [calls_of_none hcurrent]
    exact h ▸ List.prefix_refl _

theorem Agrees.length_emitted_le (h : Agrees f s₀ t) {m : ℕ} (hm : ∀ s a, (f s a).2.length ≤ m) :
    (emitted f s₀ t.calls).length ≤ t.delivered.length + m := by
  have hkept := h.kept.length_le
  unfold calls
  cases t.current with
  | none =>
    rw [Option.toList_none, List.append_nil]
    omega
  | some a =>
    have hcall := hm (statics f s₀ t.finished) a
    rw [Option.toList_some, emitted_concat, List.length_append]
    omega

/-- A machine that never has a call under way at rest. -/
theorem Agrees.runsAs {input : α → γ} {inputs : List γ} {rest : Prop} (h : Agrees f s₀ t)
    (hinputs : t.calls.map input = inputs) (hrest : rest → t.current = none) :
    RunsAs f s₀ input t inputs rest := by
  refine ⟨h, hinputs, fun hr => ?_⟩
  have hcalls := calls_of_none (hrest hr)
  apply h.produced.eq_of_length_le
  rw [hcalls]
  exact h.kept.length_le

theorem statics_record (hends : e.ends = false) :
    statics f s₀ (t.record e).finished = statics f s₀ t.finished := by
  simp [CallTrace.record, hends]

theorem statics_record_end (hcurrent : t.current = some a) (hends : e.ends = true) :
    statics f s₀ (t.record e).finished = (f (statics f s₀ t.finished) a).1 := by
  rw [← statics_concat]
  simp [CallTrace.record, hends, calls, hcurrent]

end Function

/-! ### Machines -/

section Machine

variable {S I O : Type*}

/-- A cycle of a machine and of its record. -/
def traced (step : S → I → S × O) (event : S → I → CallEvent α β) (p : S × CallTrace α β) (i : I) :
    (S × CallTrace α β) × O :=
  (((step p.1 i).1, p.2.record (event p.1 i)), (step p.1 i).2)

variable (step : S → I → S × O) (event : S → I → CallEvent α β) (f : σ → α → σ × List β) (s₀ : σ)
  (input : α → γ) (taken : S × CallTrace α β → I → List γ) (rest : S → Prop) (P : I → Prop)
  (Inv : S → CallTrace α β → Prop)

/-- A machine that makes the calls of `f` one after the other: its cycles keep `Inv`, which says of every
state what the calls owe; a call begins where the machine rests, and `taken` is its input. -/
structure CallMachine : Prop where
  keeps : ∀ {s t i}, Inv s t → P i → Inv (step s i).1 (t.record (event s i))
  agrees : ∀ {s t}, Inv s t → t.Agrees f s₀
  rests : ∀ {s t}, Inv s t → rest s → t.current = none
  begins : ∀ {s i}, (event s i).begins.isSome → rest s ∧ (event s i).ends = false
  completes : ∀ s i a, input ((event s i).completes a) = input a
  takes : ∀ s t i, taken (s, t) i = (event s i).begins.toList.map input

namespace CallMachine

variable {step event f s₀ input taken rest P Inv} {s : S} {t : CallTrace α β} {i : I}

theorem sequential (h : CallMachine step event f s₀ input taken rest P Inv) (hinv : Inv s t) :
    t.Sequential (event s i) := by
  intro hbegins
  obtain ⟨hrest, hends⟩ := h.begins hbegins
  exact ⟨h.rests hinv hrest, hends⟩

theorem calls_record (h : CallMachine step event f s₀ input taken rest P Inv) (hinv : Inv s t) :
    (t.record (event s i)).calls.map input = t.calls.map input ++ taken (s, t) i := by
  rw [h.takes]
  exact map_calls_record input (h.sequential hinv) (h.completes s i)

/-- **A run** takes the inputs of its calls in order and delivers what they return. -/
theorem runsAs (h : CallMachine step event f s₀ input taken rest P Inv) (hinv : Inv s empty) {is : List I}
    (his : ∀ i ∈ is, P i) :
    RunsAs f s₀ input (Mealy.runState (traced step event) (s, empty) is).2
      (Mealy.collect (traced step event) taken (s, empty) is)
      (rest (Mealy.runState (traced step event) (s, empty) is).1) := by
  have hkeeps : ∀ p i, Inv p.1 p.2 → P i → Inv (traced step event p i).1.1 (traced step event p i).1.2 :=
    fun p i hp hi => h.keeps hp hi
  have hrun := Mealy.invariant_run (traced step event) (I := fun p => Inv p.1 p.2) hkeeps (s := (s, empty)) hinv his
  have hinputs := Mealy.log_run (traced step event) taken (fun p => p.2.calls.map input)
    (I := fun p => Inv p.1 p.2) hkeeps (fun p i hp _ => h.calls_record hp) (s := (s, empty)) hinv his
  exact (h.agrees hrun).runsAs hinputs (h.rests hrun)

end CallMachine

end Machine

end CallTrace

end FpgaLabor
