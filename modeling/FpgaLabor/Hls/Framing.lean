import FpgaLabor.Hls.BypassHw
import FpgaLabor.Hls.Convolution

/-!
# Packet framing of the audio cores

Both cores number their beats with one 16-bit counter (`firHw_counts`, `bypassHw_counts`), so the
library's run lemma says which beats of a whole run are last. Under a constant `tlast_dnum` the
stream of `fir_hw` is cut into packets of that many beats, made of whole stereo pairs when the
number is even (`firHw_framing`). When `tlast_dnum` changes, the packets that follow are right
exactly when the counter has not reached the new length yet (`reprogram_safe_iff`).
-/

namespace FpgaLabor

open PacketCounter (SafeFraming period flags gap)

/-! ### Streams of stereo pairs -/

section Pairs

variable {α : Type*}

/-- The pairs of a run whose calls each emit a pair or nothing, each with its call number. -/
def pairsFrom (k : ℕ) : List (List α) → List (ℕ × α × α)
  | [] => []
  | [l, r] :: outs => (k, l, r) :: pairsFrom (k + 1) outs
  | _ :: outs => pairsFrom (k + 1) outs

/-- The two beats of a pair, left first. -/
def beatsOf (p : ℕ × α × α) : List α := [p.2.1, p.2.2]

theorem flatten_eq_pairs {outs : List (List α)} (h : ∀ o ∈ outs, o = [] ∨ ∃ l r, o = [l, r]) (k : ℕ) :
    outs.flatten = (pairsFrom k outs).flatMap beatsOf := by
  induction outs generalizing k with
  | nil => rfl
  | cons o outs ih =>
    have ih' := ih (fun o' ho' => h o' (by simp [ho'])) (k + 1)
    rcases h o (by simp) with rfl | ⟨l, r, rfl⟩
    · rw [List.flatten_cons, List.nil_append, ih']
      rfl
    · rw [List.flatten_cons, ih']
      rfl

theorem mem_pairsFrom {outs : List (List α)} {k n : ℕ} {l r : α} (h : (n, l, r) ∈ pairsFrom k outs) :
    k ≤ n ∧ outs[n - k]? = some [l, r] := by
  induction outs generalizing k with
  | nil => simp [pairsFrom] at h
  | cons o outs ih =>
    have hrest : (n, l, r) ∈ pairsFrom (k + 1) outs → k ≤ n ∧ (o :: outs)[n - k]? = some [l, r] := by
      intro hmem
      obtain ⟨hle, hget⟩ := ih hmem
      refine ⟨by omega, ?_⟩
      rw [show n - k = n - (k + 1) + 1 by omega, List.getElem?_cons_succ]
      exact hget
    unfold pairsFrom at h
    split at h
    · rename_i heq
      cases heq
    · rename_i heq
      cases heq
      rcases List.mem_cons.mp h with heq | hmem
      · cases heq
        exact ⟨le_rfl, by rw [Nat.sub_self]; rfl⟩
      · exact hrest hmem
    · rename_i heq
      cases heq
      exact hrest h

theorem pairsFrom_sorted (k : ℕ) (outs : List (List α)) :
    (pairsFrom k outs).Pairwise fun p q => p.1 < q.1 := by
  induction outs generalizing k with
  | nil => exact List.Pairwise.nil
  | cons o outs ih =>
    unfold pairsFrom
    split
    · exact List.Pairwise.nil
    · rename_i heq
      cases heq
      refine List.Pairwise.cons ?_ (ih _)
      rintro ⟨n, l, r⟩ hmem
      exact (mem_pairsFrom hmem).1
    · rename_i heq
      cases heq
      exact ih _

theorem length_flatMap_beatsOf (ps : List (ℕ × α × α)) :
    (ps.flatMap beatsOf).length = 2 * ps.length := by
  induction ps with
  | nil => rfl
  | cons p ps ih =>
    rw [List.flatMap_cons, List.length_append, ih, List.length_cons, beatsOf]
    simp only [List.length_cons, List.length_nil]
    omega

theorem drop_flatMap_beatsOf (ps : List (ℕ × α × α)) (a : ℕ) :
    (ps.flatMap beatsOf).drop (2 * a) = (ps.drop a).flatMap beatsOf := by
  induction a generalizing ps with
  | zero => rfl
  | succ a ih =>
    cases ps with
    | nil => simp
    | cons p ps => exact ih ps

theorem take_flatMap_beatsOf (ps : List (ℕ × α × α)) (b : ℕ) :
    (ps.flatMap beatsOf).take (2 * b) = (ps.take b).flatMap beatsOf := by
  induction b generalizing ps with
  | zero => rfl
  | succ b ih =>
    cases ps with
    | nil => simp
    | cons p ps => exact congrArg (fun t => p.2.1 :: p.2.2 :: t) (ih ps)

theorem pairsFrom_append {outs : List (List α)} (h : ∀ o ∈ outs, o = [] ∨ ∃ l r, o = [l, r]) (k : ℕ)
    (outs' : List (List α)) :
    pairsFrom k (outs ++ outs') = pairsFrom k outs ++ pairsFrom (k + outs.length) outs' := by
  induction outs generalizing k with
  | nil => rfl
  | cons o outs ih =>
    have ih' := ih (fun o' ho' => h o' (List.mem_cons_of_mem _ ho')) (k + 1)
    have hlen : k + (o :: outs).length = k + 1 + outs.length := by
      rw [List.length_cons]
      omega
    rw [hlen]
    rcases h o List.mem_cons_self with rfl | ⟨l, r, rfl⟩
    · exact ih'
    · exact congrArg (List.cons (k, l, r)) ih'

theorem pairsFrom_isChain {e : ℕ → Prop} {outs : List (List α)} {k : ℕ}
    (hpair : ∀ o ∈ outs, o = [] ∨ ∃ l r, o = [l, r])
    (h : ∀ i, outs[i]? = some [] → ¬ e (k + i)) :
    (∀ p ∈ (pairsFrom k outs).head?, ∀ i, k ≤ i → i < p.1 → ¬ e i) ∧
      (pairsFrom k outs).IsChain fun p q => ∀ i, p.1 < i → i < q.1 → ¬ e i := by
  induction outs generalizing k with
  | nil => exact ⟨nofun, .nil⟩
  | cons o outs ih =>
    have hrest := ih (k := k + 1) (fun o' ho' => hpair o' (List.mem_cons_of_mem _ ho')) fun i hi => by
      rw [Nat.add_right_comm]
      exact h (i + 1) hi
    rcases hpair o List.mem_cons_self with rfl | ⟨l, r, rfl⟩
    · have hskip : ¬ e k := h 0 rfl
      refine ⟨fun p hp i hki hip => ?_, hrest.2⟩
      rcases Nat.eq_or_lt_of_le hki with rfl | hlt
      · exact hskip
      · exact hrest.1 p hp i hlt hip
    · refine ⟨?_, List.isChain_cons.mpr ⟨fun q hq i hki hiq => hrest.1 q hq i hki hiq, hrest.2⟩⟩
      rintro p hp i hki hip
      cases hp
      exact absurd hip (Nat.not_lt.mpr hki)

end Pairs

/-! ### Constant packet length -/

theorem firHw_outputs_pair (calls : List FirHwArgs) :
    ∀ o ∈ Mealy.outputs firHw FirHwState.initial calls, o = [] ∨ ∃ l r, o = [l, r] := by
  intro o ho
  obtain ⟨n, hn⟩ := List.mem_iff_getElem?.mp ho
  have hlen : n < calls.length := by
    simpa using (List.getElem?_eq_some_iff.mp hn).1
  rcases firHw_words calls n hlen with h | ⟨l, r, h, _⟩
  · exact .inl (Option.some.inj (hn.symm.trans h))
  · exact .inr ⟨l, r, Option.some.inj (hn.symm.trans h)⟩

/-- Every complete packet of an even length is made of whole pairs. -/
theorem firHw_packet_pairs (calls : List FirHwArgs) (j h : ℕ)
    (hlen : (j + 1) * (2 * h) ≤ (Mealy.outputs firHw FirHwState.initial calls).flatten.length) :
    ∃ pairs : List (ℕ × AxisType × AxisType), pairs.length = h ∧
      pairs.Pairwise (fun p q => p.1 < q.1) ∧
      ((Mealy.outputs firHw FirHwState.initial calls).flatten.drop (j * (2 * h))).take (2 * h) =
        pairs.flatMap beatsOf ∧
      ∀ n l r, (n, l, r) ∈ pairs → ∃ hn : n < calls.length,
        (Mealy.outputs firHw FirHwState.initial calls)[n]? = some [l, r] ∧
        l.data = runWord FirHwArgs.inputL calls n calls[n] ∧
        r.data = runWord FirHwArgs.inputR calls n calls[n] := by
  have hflat := flatten_eq_pairs (firHw_outputs_pair calls) 0
  rw [hflat, length_flatMap_beatsOf] at hlen
  rw [hflat]
  set ps := pairsFrom 0 (Mealy.outputs firHw FirHwState.initial calls) with hps
  have hh : (j + 1) * h ≤ ps.length := by
    have : (j + 1) * (2 * h) = 2 * ((j + 1) * h) := by ring
    omega
  refine ⟨(ps.drop (j * h)).take h, ?_, ?_, ?_, ?_⟩
  · rw [List.length_take, List.length_drop, Nat.succ_mul] at *
    omega
  · exact ((pairsFrom_sorted 0 _).drop).take
  · rw [show j * (2 * h) = 2 * (j * h) by ring, drop_flatMap_beatsOf, take_flatMap_beatsOf]
  · intro n l r hmem
    have hget := (mem_pairsFrom (List.mem_of_mem_drop (List.mem_of_mem_take hmem))).2
    rw [Nat.sub_zero] at hget
    have hn : n < calls.length := by
      simpa using (List.getElem?_eq_some_iff.mp hget).1
    refine ⟨hn, hget, ?_⟩
    rcases firHw_words calls n hn with hnone | ⟨l', r', hout, hl, hr, _⟩
    · rw [hnone] at hget; cases hget
    · rw [hout] at hget
      cases hget
      exact ⟨hl, hr⟩

/-- **Packet framing over whole runs.** Under a constant `tlast_dnum = N` beat `k` (from `1`) is last
iff the packet length `period N` (`N`, or 65536 for `N = 0`) divides `k`; and for an even `N` every
packet is made of whole stereo pairs, each the left and then the right word of one call. -/
theorem firHw_framing (N : BitVec 16) (calls : List FirHwArgs) (hN : ∀ args ∈ calls, args.tlastDnum = N) :
    (∀ k, ∀ hk : k < (Mealy.outputs firHw FirHwState.initial calls).flatten.length,
      ((Mealy.outputs firHw FirHwState.initial calls).flatten[k].last = true ↔ period N ∣ k + 1)) ∧
    (N.toNat % 2 = 0 → ∀ j,
      (j + 1) * period N ≤ (Mealy.outputs firHw FirHwState.initial calls).flatten.length →
      ∃ pairs : List (ℕ × AxisType × AxisType), pairs.length = period N / 2 ∧
        pairs.Pairwise (fun p q => p.1 < q.1) ∧
        ((Mealy.outputs firHw FirHwState.initial calls).flatten.drop (j * period N)).take (period N) =
          pairs.flatMap (fun p => [p.2.1, p.2.2]) ∧
        ∀ n l r, (n, l, r) ∈ pairs → ∃ hn : n < calls.length,
          (Mealy.outputs firHw FirHwState.initial calls)[n]? = some [l, r] ∧
          l.data = runWord FirHwArgs.inputL calls n calls[n] ∧
          r.data = runWord FirHwArgs.inputR calls n calls[n]) := by
  refine ⟨fun k hk => ?_, fun heven j hlen => ?_⟩
  · have hflags := ((firHw_counts N).run FirHwState.initial calls hN).1
    rw [PacketCounter.last_getElem_iff hflags, show FirHwState.initial.cnt = 0 from rfl,
      PacketCounter.gap_zero]
    refine ⟨?_, ?_⟩
    · rintro ⟨hle, hdvd⟩
      exact (Nat.dvd_sub_iff_left hle (dvd_refl _)).mp hdvd
    · intro hdvd
      exact ⟨Nat.le_of_dvd (Nat.succ_pos k) hdvd, Nat.dvd_sub hdvd (dvd_refl _)⟩
  · obtain ⟨h, hh⟩ : ∃ h, period N = 2 * h := by
      refine ⟨period N / 2, ?_⟩
      unfold period
      split_ifs <;> omega
    rw [hh] at hlen ⊢
    rw [Nat.mul_div_cancel_left h (by norm_num)]
    exact firHw_packet_pairs calls j h hlen

/-- Two calls under `tlast_dnum = 2`: both their pairs are a packet. -/
theorem firHw_framing_two :
    (∀ args ∈ twoTapCalls.map ({ · with tlastDnum := 2 }), args.tlastDnum = 2) ∧
      ∃ pairs : List (ℕ × AxisType × AxisType), pairs.length = 1 ∧
        (((Mealy.outputs firHw FirHwState.initial
          (twoTapCalls.map ({ · with tlastDnum := 2 }))).flatten.drop 2).take 2) =
          pairs.flatMap (fun p => [p.2.1, p.2.2]) := by
  refine ⟨by decide, ?_⟩
  obtain ⟨pairs, hlen, _, hpairs, _⟩ :=
    (firHw_framing 2 (twoTapCalls.map ({ · with tlastDnum := 2 })) (by decide)).2 (by decide) 1
      (by decide)
  exact ⟨pairs, hlen, hpairs⟩

/-! ### A new packet length -/

/-- A call that emits whatever the decimation counter is. -/
def emittingArgs (N : BitVec 16) : FirHwArgs where
  tlastDnum := N
  smplRdNum := 0
  tapNumM1 := 0
  coeffHw := fun _ => 0
  inputL := 0
  inputR := 0

theorem tlastDnum_replicate (N : BitVec 16) (m : ℕ) :
    ∀ args ∈ List.replicate m (emittingArgs N), args.tlastDnum = N := by
  intro args hargs
  rw [List.eq_of_mem_replicate hargs]
  rfl

theorem length_firHw_emitting (s : FirHwState) (N : BitVec 16) (m : ℕ) :
    (Mealy.outputs firHw s (List.replicate m (emittingArgs N))).flatten.length = 2 * m := by
  induction m generalizing s with
  | zero => rfl
  | succ m ih =>
    rw [List.replicate_succ, Mealy.outputs_cons, List.flatten_cons, List.length_append, ih]
    rcases firHw_cases s (emittingArgs N) with ⟨_, hout, _⟩ | ⟨hskip, _⟩
    · rw [hout, List.length_cons, List.length_singleton]
      omega
    · exact absurd (BitVec.le_def.mpr (Nat.zero_le _)) hskip

theorem length_bypassHw (s : BypassHwState) (calls : List BypassHwArgs) :
    (Mealy.outputs bypassHw s calls).flatten.length = 2 * calls.length := by
  induction calls generalizing s with
  | nil => rfl
  | cons args calls ih =>
    rw [Mealy.outputs_cons, List.flatten_cons, List.length_append, ih, bypassHw_eq, List.length_cons]
    simp only [List.length_cons, List.length_nil]
    omega

/-- **Reprogramming the packet length.** In every reachable state of either core and for every
`N ≥ 1`: all later runs under `tlast_dnum = N` are fit for transfers of `N` beats exactly when the
beat counter is still below `N` in that state. -/
theorem reprogram_safe_iff (N : BitVec 16) (hN : 1 ≤ N.toNat) :
    (∀ pre : List FirHwArgs,
      (∀ post, (∀ args ∈ post, args.tlastDnum = N) →
        SafeFraming AxisType.last N.toNat
          (Mealy.outputs firHw (Mealy.runState firHw FirHwState.initial pre) post).flatten) ↔
      (Mealy.runState firHw FirHwState.initial pre).cnt.toNat < N.toNat) ∧
    ∀ pre : List BypassHwArgs,
      (∀ post, (∀ args ∈ post, args.tlastDnum = N) →
        SafeFraming AxisType.last N.toNat
          (Mealy.outputs bypassHw (Mealy.runState bypassHw BypassHwState.initial pre) post).flatten) ↔
      (Mealy.runState bypassHw BypassHwState.initial pre).cnt.toNat < N.toNat := by
  have hne : N ≠ 0 := by
    rintro rfl
    exact absurd hN (by decide)
  refine ⟨?_, ?_⟩
  · intro pre
    refine (firHw_counts N).safe_iff hne _
      ⟨List.replicate N.toNat (emittingArgs N), tlastDnum_replicate N _, ?_⟩
    rw [length_firHw_emitting]
    omega
  · intro pre
    refine (bypassHw_counts N).safe_iff hne _ ⟨List.replicate N.toNat ⟨N, 0, 0⟩, ?_, ?_⟩
    · intro args hargs
      rw [List.eq_of_mem_replicate hargs]
    · rw [length_bypassHw, List.length_replicate]
      omega

/-- The counter after `m` emitting calls under `tlast_dnum = 0`, the value the register has before
the host first writes it. -/
theorem cnt_firHw_reset (m : ℕ) :
    (Mealy.runState firHw FirHwState.initial (List.replicate m (emittingArgs 0))).cnt =
      BitVec.ofNat 16 (2 * m) := by
  rw [((firHw_counts 0).run FirHwState.initial _ (tlastDnum_replicate 0 m)).2, length_firHw_emitting]
  exact PacketCounter.iterate_bump_zero_limit _

theorem cnt_bypassHw_reset (m : ℕ) :
    (Mealy.runState bypassHw BypassHwState.initial (List.replicate m ⟨0, 0, 0⟩)).cnt = BitVec.ofNat 16 (2 * m) := by
  have hzero : ∀ args ∈ List.replicate m (⟨0, 0, 0⟩ : BypassHwArgs), args.tlastDnum = 0 := by
    intro args hargs
    rw [List.eq_of_mem_replicate hargs]
  rw [((bypassHw_counts 0).run BypassHwState.initial _ hzero).2, length_bypassHw, List.length_replicate]
  exact PacketCounter.iterate_bump_zero_limit _

/-- After 127 samples the length of 256 beats can still be programmed. -/
theorem reprogram_safe_iff_127_samples :
    (∀ post, (∀ args ∈ post, args.tlastDnum = 256) →
      SafeFraming AxisType.last 256 (Mealy.outputs firHw (Mealy.runState firHw FirHwState.initial
        (List.replicate 127 (emittingArgs 0))) post).flatten) ∧
    ∀ post, (∀ args ∈ post, args.tlastDnum = 256) →
      SafeFraming AxisType.last 256 (Mealy.outputs bypassHw (Mealy.runState bypassHw BypassHwState.initial
        (List.replicate 127 ⟨0, 0, 0⟩)) post).flatten := by
  obtain ⟨hfir, hbypass⟩ := reprogram_safe_iff 256 (by decide)
  refine ⟨?_, ?_⟩
  · apply (hfir _).mpr
    rw [cnt_firHw_reset]
    decide
  · apply (hbypass _).mpr
    rw [cnt_bypassHw_reset]
    decide

/-- 129 samples before the host writes 256 put the counter at 258: the next last beat is then more
than 256 beats away. -/
theorem reprogram_unsafe_after_129_samples :
    ¬ ∀ (pre : List FirHwArgs) (N : BitVec 16), 1 ≤ N.toNat →
      ∀ post, (∀ args ∈ post, args.tlastDnum = N) →
        SafeFraming AxisType.last N.toNat
          (Mealy.outputs firHw (Mealy.runState firHw FirHwState.initial pre) post).flatten := by
  intro hclaim
  have hpost := tlastDnum_replicate 256 256
  have hsafe := hclaim (List.replicate 129 (emittingArgs 0)) 256 (by decide) _ hpost
  have hcounts := (firHw_counts 256).run
    (Mealy.runState firHw FirHwState.initial (List.replicate 129 (emittingArgs 0))) _ hpost
  rcases (PacketCounter.safeFraming_iff (by decide) hcounts.1).mp hsafe with hlt | hshort
  · rw [cnt_firHw_reset] at hlt
    exact absurd hlt (by decide)
  · rw [length_firHw_emitting] at hshort
    exact absurd hshort (by decide)

end FpgaLabor
