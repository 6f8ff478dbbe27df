import Mathlib.Data.List.Forall2
import Mathlib.Data.List.Induction

/-!
# Runs of a function with static variables

A function that keeps state between its calls is a step `σ → ι → σ × ω`. `runState` is the state
after a list of calls (oldest first), `outputs` the list of what each call returned and `collect` what
an observer sees in all of them. A law about a whole run is proved by `runState_induction` (an
invariant indexed by the calls so far) or, between two such functions, by `runState_rel` and
`outputs_eq_of_rel` (a lock-step simulation).
-/

namespace FpgaLabor.Mealy

variable {σ ι ω : Type*} (step : σ → ι → σ × ω)

/-- The state after the calls `is` from `s`. -/
def runState (s : σ) (is : List ι) : σ := is.foldl (fun s i => (step s i).1) s

/-- What the calls `is` return from `s`, one entry per call. -/
def outputs : σ → List ι → List ω
  | _, [] => []
  | s, i :: is => (step s i).2 :: outputs (step s i).1 is

@[simp] theorem runState_nil (s : σ) : runState step s [] = s := rfl

@[simp] theorem runState_cons (s : σ) (i : ι) (is : List ι) :
    runState step s (i :: is) = runState step (step s i).1 is := rfl

theorem runState_append (s : σ) (is js : List ι) :
    runState step s (is ++ js) = runState step (runState step s is) js := by
  simp only [runState, List.foldl_append]

@[simp] theorem runState_concat (s : σ) (is : List ι) (i : ι) :
    runState step s (is ++ [i]) = (step (runState step s is) i).1 := by
  rw [runState_append]; rfl

@[simp] theorem outputs_nil (s : σ) : outputs step s [] = [] := rfl

@[simp] theorem outputs_cons (s : σ) (i : ι) (is : List ι) :
    outputs step s (i :: is) = (step s i).2 :: outputs step (step s i).1 is := rfl

@[simp] theorem length_outputs (s : σ) (is : List ι) : (outputs step s is).length = is.length := by
  induction is generalizing s with
  | nil => rfl
  | cons i is ih => simp [ih]

theorem outputs_append (s : σ) (is js : List ι) :
    outputs step s (is ++ js) = outputs step s is ++ outputs step (runState step s is) js := by
  induction is generalizing s with
  | nil => rfl
  | cons i is ih => rw [List.cons_append, outputs_cons, outputs_cons, ih, List.cons_append, runState_cons]

theorem outputs_getElem? (s : σ) (is : List ι) (n : ℕ) (hn : n < is.length) :
    (outputs step s is)[n]? = some (step (runState step s (is.take n)) is[n]).2 := by
  induction is generalizing s n with
  | nil => simp at hn
  | cons i is ih =>
    cases n with
    | zero => rfl
    | succ n => exact ih (step s i).1 n (by simpa using hn)

/-- What `obs` sees in the calls `is` from `s`, oldest first. -/
def collect {β : Type*} (obs : σ → ι → List β) : σ → List ι → List β
  | _, [] => []
  | s, i :: is => obs s i ++ collect obs (step s i).1 is

@[simp] theorem collect_nil {β : Type*} (obs : σ → ι → List β) (s : σ) : collect step obs s [] = [] := rfl

theorem collect_append {β : Type*} (obs : σ → ι → List β) (s : σ) (is js : List ι) :
    collect step obs s (is ++ js) = collect step obs s is ++ collect step obs (runState step s is) js := by
  induction is generalizing s with
  | nil => rfl
  | cons i is ih => simp [collect, ih]

@[simp] theorem collect_concat {β : Type*} (obs : σ → ι → List β) (s : σ) (is : List ι) (i : ι) :
    collect step obs s (is ++ [i]) = collect step obs s is ++ obs (runState step s is) i := by
  simp [collect_append, collect]

theorem collect_eq_nil {β : Type*} (obs : σ → ι → List β) {is : List ι} (h : ∀ s, ∀ i ∈ is, obs s i = []) (s : σ) :
    collect step obs s is = [] := by
  induction is generalizing s with
  | nil => rfl
  | cons i is ih =>
    rw [collect, h s i List.mem_cons_self, ih fun s j hj => h s j (List.mem_cons_of_mem _ hj), List.nil_append]

theorem runState_induction {P : List ι → σ → Prop} {s : σ} (hinit : P [] s)
    (hstep : ∀ is i t, P is t → P (is ++ [i]) (step t i).1) (is : List ι) :
    P is (runState step s is) := by
  induction is using List.reverseRecOn with
  | nil => exact hinit
  | append_singleton is i ih =>
    rw [runState_concat]
    exact hstep is i _ ih

theorem invariant_run {I : σ → Prop} {P : ι → Prop} (hinv : ∀ s i, I s → P i → I (step s i).1) {s : σ}
    (hs : I s) {is : List ι} (hP : ∀ i ∈ is, P i) : I (runState step s is) := by
  induction is generalizing s with
  | nil => exact hs
  | cons i is ih =>
    apply ih (hinv s i hs (hP i List.mem_cons_self))
    exact fun j hj => hP j (List.mem_cons_of_mem _ hj)

theorem invariant_run_of_seen {β : Type*} (obs : σ → ι → List β) {I : σ → Prop} {P : ι → Prop} {Q : β → Prop}
    (hinv : ∀ s i, I s → P i → (∀ b ∈ obs s i, Q b) → I (step s i).1) {s : σ} (hs : I s) {is : List ι}
    (hP : ∀ i ∈ is, P i) (hQ : ∀ b ∈ collect step obs s is, Q b) : I (runState step s is) := by
  induction is generalizing s with
  | nil => exact hs
  | cons i is ih =>
    have hfirst := hinv s i hs (hP i List.mem_cons_self) fun b hb => hQ b (List.mem_append_left _ hb)
    apply ih hfirst
    · exact fun j hj => hP j (List.mem_cons_of_mem _ hj)
    · exact fun b hb => hQ b (List.mem_append_right _ hb)

/-- A device inside the function: if every call makes of it what the accesses `obs` sees in the call make of
it, a run makes of it what the accesses of the run make of it. -/
theorem device_run {δ A W : Type*} (dev : δ → A → δ × W) (obs : σ → ι → List A) (inner : σ → δ) {I : σ → Prop}
    {P : ι → Prop} (hinv : ∀ s i, I s → P i → I (step s i).1)
    (hdev : ∀ s i, I s → P i → inner (step s i).1 = runState dev (inner s) (obs s i)) {s : σ} (hs : I s)
    {is : List ι} (hP : ∀ i ∈ is, P i) :
    inner (runState step s is) = runState dev (inner s) (collect step obs s is) := by
  induction is generalizing s with
  | nil => rfl
  | cons i is ih =>
    have hi := hP i List.mem_cons_self
    have hrest := ih (hinv s i hs hi) fun j hj => hP j (List.mem_cons_of_mem _ hj)
    rw [runState_cons, hrest, hdev s i hs hi, collect, runState_append]

/-- **A log.** If every call appends to `log` what `obs` sees in it, a run appends what is seen in the run. -/
theorem log_run {β : Type*} (obs : σ → ι → List β) (log : σ → List β) {I : σ → Prop} {P : ι → Prop}
    (hinv : ∀ s i, I s → P i → I (step s i).1)
    (hlog : ∀ s i, I s → P i → log (step s i).1 = log s ++ obs s i) {s : σ} (hs : I s) {is : List ι}
    (hP : ∀ i ∈ is, P i) : log (runState step s is) = log s ++ collect step obs s is := by
  induction is generalizing s with
  | nil => simp
  | cons i is ih =>
    have hi := hP i List.mem_cons_self
    have hrest := ih (hinv s i hs hi) fun j hj => hP j (List.mem_cons_of_mem _ hj)
    rw [runState_cons, hrest, hlog s i hs hi, collect, List.append_assoc]

/-- What the calls `is` from `s` cost together. -/
def total (cost : σ → ι → ℕ) : σ → List ι → ℕ
  | _, [] => 0
  | s, i :: is => cost s i + total cost (step s i).1 is

/-- How many of the calls are as `p` says. -/
def count (p : σ → ι → Bool) : σ → List ι → ℕ := total step fun s i => if p s i then 1 else 0

/-- What is paid for a call, and the call itself if it is idle or blocked. -/
def callCost (paid : σ → ι → ℕ) (idle blocked : σ → ι → Bool) (s : σ) (i : ι) : ℕ :=
  paid s i + (if idle s i then 1 else 0) + if blocked s i then 1 else 0

theorem total_callCost (paid : σ → ι → ℕ) (idle blocked : σ → ι → Bool) (s : σ) (is : List ι) :
    total step (callCost paid idle blocked) s is =
      total step paid s is + count step idle s is + count step blocked s is := by
  induction is generalizing s with
  | nil => rfl
  | cons i is ih =>
    simp only [count, total, callCost] at ih ⊢
    rw [ih]
    omega

theorem count_le_countP {p : σ → ι → Bool} {q : ι → Bool} (h : ∀ s i, p s i = true → q i = true) (s : σ)
    (is : List ι) : count step p s is ≤ is.countP q := by
  induction is generalizing s with
  | nil => exact Nat.le_refl 0
  | cons i is ih =>
    have hrest := ih (step s i).1
    have hfirst : (if p s i then 1 else 0) ≤ if q i then 1 else 0 := by
      by_cases hp : p s i = true
      · simp [hp, h s i hp]
      · simp [hp]
    rw [List.countP_cons, Nat.add_comm]
    exact Nat.add_le_add hfirst hrest

theorem total_mul_length {β : Type*} (obs : σ → ι → List β) (k : ℕ) (s : σ) (is : List ι) :
    total step (fun s i => k * (obs s i).length) s is = k * (collect step obs s is).length := by
  induction is generalizing s with
  | nil => rfl
  | cons i is ih => rw [total, ih, collect, List.length_append, Nat.mul_add]

/-- **Progress by a potential.** If every call lowers a potential by one, but for what it costs, then a
run is no longer than its first potential and its cost. The calls may have to be seen as `Q` asks. -/
theorem length_le_of_potential_of_seen {β : Type*} (obs : σ → ι → List β) (cost : σ → ι → ℕ) (potential : σ → ℕ)
    {I : σ → Prop} {P : ι → Prop} {Q : β → Prop}
    (hinv : ∀ s i, I s → P i → (∀ b ∈ obs s i, Q b) → I (step s i).1)
    (hstep : ∀ s i, I s → P i → potential (step s i).1 + 1 ≤ potential s + cost s i) {s : σ} (hs : I s)
    {is : List ι} (hP : ∀ i ∈ is, P i) (hQ : ∀ b ∈ collect step obs s is, Q b) :
    potential (runState step s is) + is.length ≤ potential s + total step cost s is := by
  induction is generalizing s with
  | nil => simp [total]
  | cons i is ih =>
    have hi := hP i List.mem_cons_self
    have hfirst := hstep s i hs hi
    have hnext := hinv s i hs hi fun b hb => hQ b (List.mem_append_left _ hb)
    have hrest := ih hnext (fun j hj => hP j (List.mem_cons_of_mem _ hj)) fun b hb =>
      hQ b (List.mem_append_right _ hb)
    rw [runState_cons, total, List.length_cons]
    omega

theorem length_le_of_potential (cost : σ → ι → ℕ) (potential : σ → ℕ) {I : σ → Prop} {P : ι → Prop}
    (hinv : ∀ s i, I s → P i → I (step s i).1)
    (hstep : ∀ s i, I s → P i → potential (step s i).1 + 1 ≤ potential s + cost s i) {s : σ} (hs : I s)
    {is : List ι} (hP : ∀ i ∈ is, P i) :
    potential (runState step s is) + is.length ≤ potential s + total step cost s is :=
  length_le_of_potential_of_seen step (fun _ _ => ([] : List Unit)) cost potential (Q := fun _ => True)
    (fun s i hs hi _ => hinv s i hs hi) hstep hs hP fun _ _ => trivial

/-- **Lock-step simulation.** Two functions whose states stay related under related calls are in
related states after every pair of related runs. -/
theorem runState_rel {σ' ι' ω' : Type*} (step' : σ' → ι' → σ' × ω') {R : σ → σ' → Prop}
    {Q : ι → ι' → Prop} (hsim : ∀ s t i j, R s t → Q i j → R (step s i).1 (step' t j).1)
    {s : σ} {t : σ'} (hst : R s t) {is : List ι} {js : List ι'} (hij : List.Forall₂ Q is js) :
    R (runState step s is) (runState step' t js) := by
  induction hij generalizing s t with
  | nil => exact hst
  | cons hq _ ih => exact ih (hsim _ _ _ _ hst hq)

/-- **Trace equivalence.** Two functions whose states stay related and which return the same on the
calls that satisfy `P`, as one of them takes them and as the other does, return the same lists. -/
theorem outputs_eq_of_rel {σ' ι' : Type*} (step' : σ' → ι' → σ' × ω) (f : ι → ι') {R : σ → σ' → Prop}
    {P : ι → Prop}
    (hsim : ∀ s t i, R s t → P i → R (step s i).1 (step' t (f i)).1 ∧ (step s i).2 = (step' t (f i)).2)
    {s : σ} {t : σ'} (hst : R s t) {is : List ι} (hP : ∀ i ∈ is, P i) :
    outputs step s is = outputs step' t (is.map f) := by
  induction is generalizing s t with
  | nil => rfl
  | cons i is ih =>
    obtain ⟨hnext, hout⟩ := hsim s t i hst (hP i List.mem_cons_self)
    rw [List.map_cons, outputs_cons, outputs_cons, hout,
      ih hnext fun j hj => hP j (List.mem_cons_of_mem _ hj)]

end FpgaLabor.Mealy
