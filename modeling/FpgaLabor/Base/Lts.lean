import Mathlib.Data.List.Basic

/-!
# Labelled transition systems and their runs

A system is a partial step `σ → ε → Option σ`; `none` says that the event cannot happen in the state.
`run` follows a list of events. `Along P` says that every step of a run is taken in a state and with an
event that satisfy `P`; it states hypotheses on an interleaving and properties of one in the same form.
A safety property is an invariant of the steps (`run_induction`), possibly of those that satisfy a
hypothesis (`Along.run_induction`) and possibly together with the events so far
(`Along.history_induction`).
-/

namespace FpgaLabor.Lts

variable {σ ε : Type*} (step : σ → ε → Option σ)

/-- The state after the events `es` from `s`, if all of them can happen. -/
def run : σ → List ε → Option σ
  | s, [] => some s
  | s, e :: es => (step s e).bind fun s' => run s' es

/-- Every step of the run `es` from `s` satisfies `P` in the state before it. -/
def Along (P : σ → ε → Prop) : σ → List ε → Prop
  | _, [] => True
  | s, e :: es => P s e ∧ ∀ s', step s e = some s' → Along P s' es

variable {step}

theorem run_cons {s t : σ} {e : ε} {es : List ε} :
    run step s (e :: es) = some t ↔ ∃ s', step s e = some s' ∧ run step s' es = some t :=
  Option.bind_eq_some_iff

theorem run_append {s t : σ} {es fs : List ε} :
    run step s (es ++ fs) = some t ↔ ∃ s', run step s es = some s' ∧ run step s' fs = some t := by
  induction es generalizing s with
  | nil => simp [run]
  | cons e es ih =>
    rw [List.cons_append, run_cons]
    refine ⟨?_, ?_⟩
    · rintro ⟨s', hs', hrest⟩
      obtain ⟨s'', hes, hfs⟩ := ih.mp hrest
      exact ⟨s'', run_cons.mpr ⟨s', hs', hes⟩, hfs⟩
    · rintro ⟨s'', hes, hfs⟩
      obtain ⟨s', hs', hrest⟩ := run_cons.mp hes
      exact ⟨s', hs', ih.mpr ⟨s'', hrest, hfs⟩⟩

/-- **Invariant rule.** What every step preserves holds after every run. -/
theorem run_induction {I : σ → Prop} (hstep : ∀ s e s', I s → step s e = some s' → I s') {s t : σ}
    {es : List ε} (hs : I s) (hrun : run step s es = some t) : I t := by
  induction es generalizing s with
  | nil =>
    cases hrun
    exact hs
  | cons e es ih =>
    obtain ⟨s', hs', hrest⟩ := run_cons.mp hrun
    exact ih (hstep s e s' hs hs') hrest

/-- **A log.** If every step appends to `log` what `obs` sees in its event, a run appends what is seen in its
events. -/
theorem log_run {β : Type*} (log : σ → List β) (obs : ε → List β)
    (hlog : ∀ s e s', step s e = some s' → log s' = log s ++ obs e) {s t : σ} {es : List ε}
    (hrun : run step s es = some t) : log t = log s ++ es.flatMap obs := by
  induction es generalizing s with
  | nil =>
    cases hrun
    exact (List.append_nil _).symm
  | cons e es ih =>
    obtain ⟨s', hs', hrest⟩ := run_cons.mp hrun
    rw [ih hrest, hlog s e s' hs', List.flatMap_cons, List.append_assoc]

/-- **Guarded invariant rule.** What every step that satisfies `P` preserves holds after every run whose
steps satisfy `P`. -/
theorem Along.run_induction {I : σ → Prop} {P : σ → ε → Prop}
    (hstep : ∀ s e s', I s → P s e → step s e = some s' → I s') {s t : σ} {es : List ε}
    (halong : Along step P s es) (hs : I s) (hrun : run step s es = some t) : I t := by
  induction es generalizing s with
  | nil =>
    cases hrun
    exact hs
  | cons e es ih =>
    obtain ⟨s', hs', hrest⟩ := run_cons.mp hrun
    exact ih (halong.2 s' hs') (hstep s e s' hs halong.1 hs') hrest

theorem Along.imp {I : σ → Prop} {P Q : σ → ε → Prop}
    (hstep : ∀ s e s', I s → P s e → step s e = some s' → I s')
    (himp : ∀ s e, I s → P s e → Q s e) {s : σ} {es : List ε} (halong : Along step P s es) (hs : I s) :
    Along step Q s es := by
  induction es generalizing s with
  | nil => trivial
  | cons e es ih =>
    refine ⟨himp s e hs halong.1, fun s' hs' => ?_⟩
    exact ih (halong.2 s' hs') (hstep s e s' hs halong.1 hs')

theorem along_congr {P Q : σ → ε → Prop} (h : ∀ s e s', step s e = some s' → (P s e ↔ Q s e)) {s t : σ}
    {es : List ε} (hrun : run step s es = some t) : Along step P s es ↔ Along step Q s es := by
  induction es generalizing s with
  | nil => exact Iff.rfl
  | cons e es ih =>
    obtain ⟨s', hs', hrest⟩ := run_cons.mp hrun
    refine and_congr (h s e s' hs') (forall₂_congr fun s'' hs'' => ?_)
    rw [hs', Option.some.injEq] at hs''
    exact hs'' ▸ ih hrest

theorem along_of_forall {P : σ → ε → Prop} {es : List ε} (h : ∀ e ∈ es, ∀ s, P s e) (s : σ) :
    Along step P s es := by
  induction es generalizing s with
  | nil => trivial
  | cons e es ih =>
    exact ⟨h e List.mem_cons_self s, fun s' _ => ih (fun e' he => h e' (List.mem_cons_of_mem _ he)) s'⟩

theorem Along.of_append {P : σ → ε → Prop} {s : σ} {es fs : List ε}
    (h : Along step P s (es ++ fs)) : Along step P s es := by
  induction es generalizing s with
  | nil => trivial
  | cons e es ih => exact ⟨h.1, fun s' hs' => ih (h.2 s' hs')⟩

theorem along_iff_of_invariant {I : σ → Prop} {P Q : σ → ε → Prop}
    (hstep : ∀ s e s', I s → step s e = some s' → I s') (h : ∀ s e, I s → (P s e ↔ Q s e)) {s : σ}
    (hs : I s) (es : List ε) : Along step P s es ↔ Along step Q s es :=
  ⟨fun halong => halong.imp (fun s e s' hI _ hs' => hstep s e s' hI hs') (fun s e hI => (h s e hI).mp) hs,
    fun halong => halong.imp (fun s e s' hI _ hs' => hstep s e s' hI hs') (fun s e hI => (h s e hI).mpr) hs⟩

theorem Along.of_run {P : σ → ε → Prop} {s t : σ} {es fs : List ε} {e : ε}
    (h : Along step P s (es ++ e :: fs)) (hrun : run step s es = some t) : P t e := by
  induction es generalizing s with
  | nil =>
    cases hrun
    exact h.1
  | cons e' es ih =>
    obtain ⟨s', hs', hrest⟩ := run_cons.mp hrun
    exact ih (h.2 s' hs') hrest

/-- The system without the steps that violate `P`. -/
def restrict (step : σ → ε → Option σ) (P : σ → ε → Bool) (s : σ) (e : ε) : Option σ :=
  if P s e then step s e else none

theorem restrict_eq_some {P : σ → ε → Bool} {s t : σ} {e : ε} :
    restrict step P s e = some t ↔ P s e = true ∧ step s e = some t := by
  unfold restrict
  cases P s e <;> simp

/-- A system whose steps, for some of the events, are those of another one under a map of the states
runs through such events as the other one does. -/
theorem run_map {τ : Type*} {step' : τ → ε → Option τ} (f : σ → τ) {es : List ε}
    (hstep : ∀ s, ∀ e ∈ es, step' (f s) e = (step s e).map f) {s t : σ} (hrun : run step s es = some t) :
    run step' (f s) es = some (f t) := by
  induction es generalizing s with
  | nil =>
    cases hrun
    rfl
  | cons e es ih =>
    obtain ⟨s', hs', hrest⟩ := run_cons.mp hrun
    refine run_cons.mpr ⟨f s', ?_, ih (fun s e he => hstep s e (List.mem_cons_of_mem _ he)) hrest⟩
    rw [hstep s e List.mem_cons_self, hs', Option.map_some]

/-- **Guarded invariant rule with history.** The invariant may speak about the events so far. -/
theorem Along.history_induction {I : List ε → σ → Prop} {P : σ → ε → Prop} {s t : σ}
    (hstep : ∀ pre u e u', I pre u → P u e → step u e = some u' → I (pre ++ [e]) u') {es : List ε}
    (halong : Along step P s es) (hs : I [] s) (hrun : run step s es = some t) : I es t := by
  have hgen : ∀ (es pre : List ε) (u : σ), Along step P u es → I pre u → run step u es = some t →
      I (pre ++ es) t := by
    intro es
    induction es with
    | nil =>
      intro pre u _ hI hu
      cases hu
      rwa [List.append_nil]
    | cons e es ih =>
      intro pre u hP hI hu
      obtain ⟨u', hu', hrest⟩ := run_cons.mp hu
      have hnext := ih (pre ++ [e]) u' (hP.2 u' hu') (hstep pre u e u' hI hP.1 hu') hrest
      rwa [List.append_assoc] at hnext
  exact hgen es [] s halong hs hrun

end FpgaLabor.Lts
