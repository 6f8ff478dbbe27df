import Mathlib.Data.List.Basic

/-!
# The two sample FIFOs under back-pressure

`fifo_generator_1` and `fifo_generator_2`, each of depth `D`, between the alternating valids of
`audio_interface` and `fir_hw`. A word is represented by the number of its frame. Neither `full` flag is
wired, so a word is lost by its own FIFO alone. In a run in which no call comes between the loss of a
left word and the right write of the same frame, both FIFOs hold the same frames (`Aligned`); such a
call makes room for the right word of a frame whose left word is lost (`Orphan`), and the next rounds
pop it with a left word of another frame.
-/

namespace FpgaLabor.StereoFifos

/-- A write to a FIFO of depth `D`, ignored while it is full. -/
def write (D : ℕ) (fifo : List ℕ) (frame : ℕ) : List ℕ :=
  if fifo.length < D then fifo ++ [frame] else fifo

/-- The FIFOs, the number of valids so far, the pairs `fir_hw` has consumed, and whether the left word
of the frame being written was lost. -/
structure Fifos where
  left : List ℕ
  right : List ℕ
  valids : ℕ
  popped : List (ℕ × ℕ)
  leftLost : Bool

/-- `adcValid` is the next of the alternating valids, left first; `firHw` a call. -/
inductive Op
  | adcValid
  | firHw
  deriving DecidableEq

/-- Two valids make a frame, numbered from one. -/
def Fifos.frame (s : Fifos) : ℕ := s.valids / 2 + 1

/-- A call pops both FIFOs and waits, popping neither, while one of them is empty. -/
def step (D : ℕ) (s : Fifos) : Op → Fifos
  | .adcValid =>
    if s.valids % 2 = 0 then
      { s with
        left := write D s.left s.frame
        valids := s.valids + 1
        leftLost := !decide (s.left.length < D) }
    else
      { s with right := write D s.right s.frame, valids := s.valids + 1, leftLost := false }
  | .firHw =>
    match s.left, s.right with
    | l :: ls, r :: rs => { s with left := ls, right := rs, popped := s.popped ++ [(l, r)] }
    | _, _ => s

/-- Both FIFOs empty, before the first valid. -/
def init : Fifos := ⟨[], [], 0, [], false⟩

/-- The state after the operations `ops`. -/
def run (D : ℕ) (s : Fifos) (ops : List Op) : Fifos := ops.foldl (step D) s

/-- No call comes between the loss of a left word and the right write of its frame. -/
def Unsplit (D : ℕ) : Fifos → List Op → Prop
  | _, [] => True
  | s, op :: ops => (op = .firHw → s.leftLost = false) ∧ Unsplit D (step D s op) ops

theorem unsplit_append {D : ℕ} {ops ext : List Op} {s : Fifos} :
    Unsplit D s (ops ++ ext) ↔ Unsplit D s ops ∧ Unsplit D (run D s ops) ext := by
  induction ops generalizing s with
  | nil => simp [Unsplit, run]
  | cons op ops ih =>
    rw [List.cons_append, Unsplit, Unsplit, ih, and_assoc]
    rfl

/-! ### Steps -/

section Steps

variable {D : ℕ} {s : Fifos}

theorem write_of_lt {fifo : List ℕ} {f : ℕ} (h : fifo.length < D) : write D fifo f = fifo ++ [f] :=
  if_pos h

theorem write_of_full {fifo : List ℕ} {f : ℕ} (h : ¬ fifo.length < D) : write D fifo f = fifo :=
  if_neg h

theorem length_write_le {fifo : List ℕ} {f : ℕ} (h : fifo.length ≤ D) : (write D fifo f).length ≤ D := by
  by_cases hroom : fifo.length < D
  · rw [write_of_lt hroom, List.length_append, List.length_singleton]
    exact hroom
  · rw [write_of_full hroom]
    exact h

theorem mem_write {fifo : List ℕ} {f i : ℕ} (h : i ∈ write D fifo f) : i ∈ fifo ∨ i = f := by
  by_cases hroom : fifo.length < D
  · rw [write_of_lt hroom, List.mem_append, List.mem_singleton] at h
    exact h
  · rw [write_of_full hroom] at h
    exact .inl h

theorem exists_write_eq (D : ℕ) (fifo : List ℕ) (f : ℕ) : ∃ tail, write D fifo f = fifo ++ tail := by
  by_cases hroom : fifo.length < D
  · exact ⟨[f], write_of_lt hroom⟩
  · exact ⟨[], by rw [write_of_full hroom, List.append_nil]⟩

theorem write_ne_nil (hD : 1 ≤ D) (fifo : List ℕ) (f : ℕ) : write D fifo f ≠ [] := by
  by_cases hroom : fifo.length < D
  · rw [write_of_lt hroom]
    exact List.append_ne_nil_of_right_ne_nil _ (List.cons_ne_nil _ _)
  · rw [write_of_full hroom]
    apply List.ne_nil_of_length_pos
    omega

theorem step_left (h : s.valids % 2 = 0) : step D s .adcValid =
    { s with
      left := write D s.left s.frame
      valids := s.valids + 1
      leftLost := !decide (s.left.length < D) } := if_pos h

theorem step_right (h : s.valids % 2 = 1) : step D s .adcValid =
    { s with right := write D s.right s.frame, valids := s.valids + 1, leftLost := false } :=
  if_neg (by omega)

theorem step_firHw_cases (D : ℕ) (s : Fifos) :
    (∃ l ls r rs, s.left = l :: ls ∧ s.right = r :: rs ∧
      step D s .firHw = { s with left := ls, right := rs, popped := s.popped ++ [(l, r)] }) ∨
    ((s.left = [] ∨ s.right = []) ∧ step D s .firHw = s) := by
  rcases hl : s.left with _ | ⟨l, ls⟩
  · exact .inr ⟨.inl rfl, by simp only [step, hl]⟩
  · rcases hr : s.right with _ | ⟨r, rs⟩
    · exact .inr ⟨.inr rfl, by simp only [step, hl, hr]⟩
    · exact .inl ⟨l, ls, r, rs, rfl, rfl, by simp only [step, hl, hr]⟩

end Steps

/-! ### The FIFOs stay aligned -/

/-- Between frames both FIFOs hold the same frames. Within a frame the left one is ahead by the word
just written, or that word is lost and both are full. -/
structure Aligned (D : ℕ) (s : Fifos) : Prop where
  matched : ∀ p ∈ s.popped, p.1 = p.2
  between : s.valids % 2 = 0 → s.left = s.right ∧ s.leftLost = false
  written : s.valids % 2 = 1 → s.leftLost = false → s.left = s.right ++ [s.frame]
  lost : s.valids % 2 = 1 → s.leftLost = true → s.left = s.right ∧ s.left.length = D
  bound : s.left.length ≤ D
  old : ∀ i ∈ s.right, 2 * i ≤ s.valids

theorem aligned_init (D : ℕ) : Aligned D init where
  matched p hp := by cases hp
  between _ := ⟨rfl, rfl⟩
  written h := by cases h
  lost h := by cases h
  bound := Nat.zero_le D
  old i hi := by cases hi

section Aligned

variable {D : ℕ} {s : Fifos}

theorem Aligned.left_valid (h : Aligned D s) (heven : s.valids % 2 = 0) :
    Aligned D (step D s .adcValid) := by
  obtain ⟨heq, -⟩ := h.between heven
  rw [step_left heven]
  refine ⟨h.matched, fun hodd => ?_, fun _ hkept => ?_, fun _ hlost => ?_, length_write_le h.bound,
    fun i hi => Nat.le_succ_of_le (h.old i hi)⟩
  · simp only at hodd
    omega
  · have hlt : s.left.length < D := by simpa using hkept
    simp only [Fifos.frame] at *
    rw [write_of_lt hlt, heq, show (s.valids + 1) / 2 = s.valids / 2 by omega]
  · have hfull : ¬ s.left.length < D := by simpa using hlost
    simp only
    rw [write_of_full hfull]
    exact ⟨heq, Nat.le_antisymm h.bound (Nat.not_lt.mp hfull)⟩

theorem Aligned.right_valid (h : Aligned D s) (hodd : s.valids % 2 = 1) :
    Aligned D (step D s .adcValid) := by
  have hframe : 2 * s.frame = s.valids + 1 := by
    unfold Fifos.frame
    omega
  have hright : write D s.right s.frame = s.left := by
    cases hlost : s.leftLost with
    | false =>
      have heq := h.written hodd hlost
      have hlen := h.bound
      rw [heq, List.length_append, List.length_singleton] at hlen
      rw [heq, write_of_lt hlen]
    | true =>
      obtain ⟨heq, hfull⟩ := h.lost hodd hlost
      have hright : ¬ s.right.length < D := by
        rw [← heq, hfull]
        exact Nat.lt_irrefl D
      rw [write_of_full hright, heq]
  rw [step_right hodd]
  refine ⟨h.matched, fun _ => ⟨hright.symm, rfl⟩, fun heven => ?_, fun _ hlost => ?_, h.bound, ?_⟩
  · simp only at heven
    omega
  · cases hlost
  · intro i hi
    rcases mem_write hi with hmem | rfl
    · exact Nat.le_succ_of_le (h.old i hmem)
    · exact Nat.le_of_eq hframe

theorem Aligned.firHw (h : Aligned D s) (hkept : s.leftLost = false) :
    Aligned D (step D s .firHw) := by
  obtain ⟨l, ls, r, rs, hl, hr, hstep⟩ | ⟨-, hstep⟩ := step_firHw_cases D s
  · have hbound := h.bound
    rw [hl, List.length_cons] at hbound
    -- the heads are of one frame, whether or not the left FIFO is ahead
    have hheads : l = r ∧ (s.valids % 2 = 0 → ls = rs) ∧ (s.valids % 2 = 1 → ls = rs ++ [s.frame]) := by
      rcases Nat.mod_two_eq_zero_or_one s.valids with heven | hodd
      · obtain ⟨heq, -⟩ := h.between heven
        rw [hl, hr, List.cons.injEq] at heq
        exact ⟨heq.1, fun _ => heq.2, fun hodd => by omega⟩
      · have heq := h.written hodd hkept
        rw [hl, hr, List.cons_append, List.cons.injEq] at heq
        exact ⟨heq.1, fun heven => by omega, fun _ => heq.2⟩
    rw [hstep]
    refine ⟨fun p hp => ?_, fun heven => ⟨hheads.2.1 heven, hkept⟩, fun hodd _ => hheads.2.2 hodd,
      fun _ hlost => ?_, Nat.le_of_succ_le hbound, fun i hi => ?_⟩
    · rcases List.mem_append.mp hp with hmem | hnew
      · exact h.matched p hmem
      · rw [List.mem_singleton.mp hnew]
        exact hheads.1
    · rw [show s.leftLost = true from hlost] at hkept
      cases hkept
    · exact h.old i (hr ▸ List.mem_cons_of_mem r hi)
  · rw [hstep]
    exact h

theorem Aligned.step (h : Aligned D s) (op : Op) (hop : op = .firHw → s.leftLost = false) :
    Aligned D (step D s op) := by
  cases op with
  | adcValid =>
    rcases Nat.mod_two_eq_zero_or_one s.valids with heven | hodd
    · exact h.left_valid heven
    · exact h.right_valid hodd
  | firHw => exact h.firHw (hop rfl)

theorem Aligned.run (h : Aligned D s) (ops : List Op) (hops : Unsplit D s ops) :
    Aligned D (run D s ops) := by
  induction ops generalizing s with
  | nil => exact h
  | cons op ops ih => exact ih (h.step op hops.1) hops.2

end Aligned

/-! ### A right word whose left word is lost -/

/-- The left word of frame `f` is lost, and its right word has room, waits, or was popped with the left
word of another frame. -/
structure Orphan (D f : ℕ) (s : Fifos) : Prop where
  lost : f ∉ s.left
  past : 2 * f ≤ s.valids + 1
  right : (2 * f = s.valids + 1 ∧ s.right.length < D) ∨ f ∈ s.right ∨ ∃ p ∈ s.popped, p.2 = f ∧ p.1 ≠ f

section Orphan

variable {D f : ℕ} {s : Fifos}

/-- A call in the middle of a frame whose left word is lost makes room for the right word. -/
theorem Aligned.orphan (hD : 1 ≤ D) (h : Aligned D s) (hlost : s.leftLost = true) :
    Orphan D s.frame (StereoFifos.step D s .firHw) := by
  have hodd : s.valids % 2 = 1 := by
    by_contra heven
    have hkept := (h.between (by omega)).2
    rw [hlost] at hkept
    cases hkept
  have hframe : 2 * s.frame = s.valids + 1 := by
    unfold Fifos.frame
    omega
  obtain ⟨heq, hfull⟩ := h.lost hodd hlost
  obtain ⟨l, ls, r, rs, hl, hr, hstep⟩ | ⟨hempty, -⟩ := step_firHw_cases D s
  · rw [hstep]
    refine ⟨fun hmem => ?_, Nat.le_of_eq hframe, .inl ⟨hframe, ?_⟩⟩
    · have hold := h.old s.frame (heq ▸ hl ▸ List.mem_cons_of_mem l hmem)
      omega
    · have hlen : s.right.length = D := heq ▸ hfull
      rw [hr, List.length_cons] at hlen
      exact Nat.lt_of_succ_le (Nat.le_of_eq hlen)
  · have hnil : s.left = [] := hempty.elim id (fun hr => heq.trans hr)
    rw [hnil, List.length_nil] at hfull
    omega

theorem Orphan.adcValid (h : Orphan D f s) : Orphan D f (step D s .adcValid) := by
  have hpast := h.past
  rcases Nat.mod_two_eq_zero_or_one s.valids with heven | hodd
  · rw [step_left heven]
    refine ⟨fun hmem => ?_, Nat.le_succ_of_le hpast, .inr ?_⟩
    · rcases mem_write hmem with hold | hnew
      · exact h.lost hold
      · unfold Fifos.frame at hnew
        omega
    · rcases h.right with ⟨hroom, -⟩ | hright
      · omega
      · exact hright
  · rw [step_right hodd]
    refine ⟨h.lost, Nat.le_succ_of_le hpast, .inr ?_⟩
    rcases h.right with ⟨hroom, hlt⟩ | hmem | hpopped
    · left
      have hframe : s.frame = f := by
        unfold Fifos.frame
        omega
      simp only [hframe]
      rw [write_of_lt hlt]
      exact List.mem_append_right _ (List.mem_singleton_self f)
    · left
      obtain ⟨tail, htail⟩ := exists_write_eq D s.right s.frame
      simp only [htail]
      exact List.mem_append_left tail hmem
    · exact .inr hpopped

theorem Orphan.firHw (h : Orphan D f s) : Orphan D f (step D s .firHw) := by
  obtain ⟨l, ls, r, rs, hl, hr, hstep⟩ | ⟨-, hstep⟩ := step_firHw_cases D s
  · rw [hstep]
    refine ⟨fun hmem => h.lost (hl ▸ List.mem_cons_of_mem l hmem), h.past, ?_⟩
    rcases h.right with ⟨hroom, hlt⟩ | hmem | ⟨p, hp, hpf⟩
    · rw [hr, List.length_cons] at hlt
      exact .inl ⟨hroom, Nat.lt_of_succ_lt hlt⟩
    · rw [hr] at hmem
      rcases List.mem_cons.mp hmem with rfl | hrest
      · -- popped now, with a left word that cannot be its own
        refine .inr (.inr ⟨(l, f), List.mem_append_right _ (List.mem_singleton_self _), rfl, ?_⟩)
        intro (hlf : l = f)
        exact h.lost (hl ▸ hlf ▸ List.mem_cons_self)
      · exact .inr (.inl hrest)
    · exact .inr (.inr ⟨p, List.mem_append_left _ hp, hpf⟩)
  · rw [hstep]
    exact h

theorem Orphan.run (h : Orphan D f s) (ops : List Op) : Orphan D f (run D s ops) := by
  induction ops generalizing s with
  | nil => exact h
  | cons op ops ih =>
    cases op with
    | adcValid => exact ih h.adcValid
    | firHw => exact ih h.firHw

theorem round_popped (hD : 1 ≤ D) (heven : s.valids % 2 = 0) {r : ℕ} {rs : List ℕ}
    (hr : s.right = r :: rs) :
    ∃ l tail, l ∈ (run D s [.adcValid, .adcValid]).left ∧
      (run D s [.adcValid, .adcValid, .firHw]).popped = s.popped ++ [(l, r)] ∧
      (run D s [.adcValid, .adcValid, .firHw]).right = rs ++ tail ∧
      (run D s [.adcValid, .adcValid, .firHw]).valids % 2 = 0 := by
  obtain ⟨l, ls, hl⟩ := List.exists_cons_of_ne_nil (write_ne_nil hD s.left s.frame)
  obtain ⟨tail, htail⟩ := exists_write_eq D s.right s.frame
  have htwo : run D s [.adcValid, .adcValid] =
      ⟨l :: ls, r :: (rs ++ tail), s.valids + 2, s.popped, false⟩ := by
    simp only [run, List.foldl_cons, List.foldl_nil]
    rw [step_left heven, step_right (by simp only; omega)]
    unfold Fifos.frame at hl htail ⊢
    rw [show (s.valids + 1) / 2 = s.valids / 2 by omega, htail, hl, hr]
    rfl
  have hthree : run D s [.adcValid, .adcValid, .firHw] =
      ⟨ls, rs ++ tail, s.valids + 2, s.popped ++ [(l, r)], false⟩ := by
    change step D (run D s [.adcValid, .adcValid]) .firHw = _
    rw [htwo]
    rfl
  rw [hthree, htwo]
  exact ⟨l, tail, List.mem_cons_self, rfl, rfl, by simp only; omega⟩

theorem unsplit_round (D : ℕ) (s : Fifos) (heven : s.valids % 2 = 0) :
    Unsplit D s [.adcValid, .adcValid, .firHw] := by
  refine ⟨nofun, nofun, fun _ => ?_, trivial⟩
  rw [step_left heven, step_right (by simp only; omega)]

/-- Frames and calls in turn pop what waits ahead of the orphan, and then the orphan. -/
theorem Orphan.drain (hD : 1 ≤ D) (h : Orphan D f s) (heven : s.valids % 2 = 0) {ahead rest : List ℕ}
    (hright : s.right = ahead ++ f :: rest) :
    ∃ ext, Unsplit D s ext ∧ ∃ p ∈ (StereoFifos.run D s ext).popped, p.1 ≠ p.2 := by
  induction ahead generalizing s rest with
  | nil =>
    obtain ⟨l, tail, hl, hpopped, -⟩ := round_popped hD heven hright
    refine ⟨[.adcValid, .adcValid, .firHw], unsplit_round D s heven, (l, f), ?_, ?_⟩
    · rw [hpopped]
      exact List.mem_append_right _ (List.mem_singleton_self _)
    · intro (hlf : l = f)
      exact (h.run [.adcValid, .adcValid]).lost (hlf ▸ hl)
  | cons r ahead ih =>
    obtain ⟨l, tail, -, -, hright', heven'⟩ := round_popped hD heven hright
    change _ = (ahead ++ f :: rest) ++ tail at hright'
    rw [List.append_assoc, List.cons_append] at hright'
    obtain ⟨ext, hext, hp⟩ := ih (h.run [.adcValid, .adcValid, .firHw]) heven' hright'
    refine ⟨[.adcValid, .adcValid, .firHw] ++ ext, unsplit_append.mpr ⟨unsplit_round D s heven, hext⟩, ?_⟩
    rw [StereoFifos.run, List.foldl_append]
    exact hp

/-- **An orphan is never made up for**: some continuation without a further such call pops it. -/
theorem Orphan.mismatch (hD : 1 ≤ D) (h : Orphan D f s) :
    ∃ ext, Unsplit D s ext ∧ ∃ p ∈ (StereoFifos.run D s ext).popped, p.1 ≠ p.2 := by
  have hbetween : ∀ {s : Fifos}, Orphan D f s → s.valids % 2 = 0 →
      ∃ ext, Unsplit D s ext ∧ ∃ p ∈ (StereoFifos.run D s ext).popped, p.1 ≠ p.2 := by
    intro s h heven
    rcases h.right with ⟨hroom, -⟩ | hmem | ⟨p, hp, rfl, hne⟩
    · omega
    · obtain ⟨ahead, rest, hright⟩ := List.append_of_mem hmem
      exact h.drain hD heven hright
    · exact ⟨[], trivial, p, hp, hne⟩
  rcases Nat.mod_two_eq_zero_or_one s.valids with heven | hodd
  · exact hbetween h heven
  · have heven : (step D s .adcValid).valids % 2 = 0 := by
      rw [step_right hodd]
      simp only
      omega
    obtain ⟨ext, hext, hp⟩ := hbetween h.adcValid heven
    exact ⟨.adcValid :: ext, ⟨nofun, hext⟩, hp⟩

theorem Aligned.exists_orphan (hD : 1 ≤ D) (h : Aligned D s) {ops : List Op}
    (hops : ¬ Unsplit D s ops) : ∃ f, Orphan D f (StereoFifos.run D s ops) := by
  induction ops generalizing s with
  | nil => exact absurd trivial hops
  | cons op ops ih =>
    by_cases hop : op = .firHw → s.leftLost = false
    · exact ih (h.step op hop) (fun hrest => hops ⟨hop, hrest⟩)
    · rw [Classical.not_imp, Bool.not_eq_false] at hop
      obtain ⟨rfl, hlost⟩ := hop
      exact ⟨s.frame, (h.orphan hD hlost).run ops⟩

end Orphan

/-- **Pairing under back-pressure.** For FIFOs of any depth and every interleaving of valids and calls:
all pairs popped in the run and in its continuations are of one frame exactly when no call of the run
comes between the loss of a left word and the right write of its frame. (The continuations are those
that make no such call themselves.) -/
theorem popped_matched_iff (D : ℕ) (hD : 1 ≤ D) (ops : List Op) :
    (∀ ext, Unsplit D (run D init ops) ext → ∀ p ∈ (run D init (ops ++ ext)).popped, p.1 = p.2) ↔
      Unsplit D init ops := by
  refine ⟨?_, ?_⟩
  · intro hmatched
    by_contra hsplit
    obtain ⟨f, horphan⟩ := (aligned_init D).exists_orphan hD hsplit
    obtain ⟨ext, hext, p, hp, hne⟩ := horphan.mismatch hD
    refine hne (hmatched ext hext p ?_)
    rw [run, List.foldl_append]
    exact hp
  · intro hops ext hext
    exact ((aligned_init D).run (ops ++ ext) (unsplit_append.mpr ⟨hops, hext⟩)).matched

/-- Depth 1, stalled for two frames and then served. -/
theorem popped_matched_iff_stalled :
    (run 1 init ([.adcValid, .adcValid, .adcValid, .adcValid, .firHw] ++
      [.adcValid, .adcValid, .firHw])).popped.all (fun p => p.1 == p.2) = true := by
  rw [List.all_eq_true]
  intro p hp
  refine beq_iff_eq.mpr ((popped_matched_iff 1 (Nat.le_refl 1) _).2 ?_ _ ?_ p hp)
  · simp [Unsplit, step, init, write]
  · simp [Unsplit, step, init, write, run]

/-- Depth 1: a call between the lost left word and the right word of frame 2 joins the right word of
frame 2 with the left word of frame 3. -/
theorem popped_mismatched_depth_one :
    ¬ ∀ D, 1 ≤ D → ∀ ops : List Op, ∀ p ∈ (run D init ops).popped, p.1 = p.2 := by
  intro hclaim
  have hpair := hclaim 1 (Nat.le_refl 1)
    [.adcValid, .adcValid, .adcValid, .firHw, .adcValid, .adcValid, .firHw] (3, 2) (by decide)
  cases hpair

end FpgaLabor.StereoFifos
