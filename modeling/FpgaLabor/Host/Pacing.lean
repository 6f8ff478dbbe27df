import FpgaLabor.Host.HandOff

/-!
# Blocks that are lost although the main loop keeps up

A run is paced if between two IOC interrupts some call of `transfer_data` begins, evaluates its `if` and,
if it holds, captures the block. `RxIntrHandler` sets the flag of the next block as soon as that one is
complete, and `transfer_data` clears the flag last, long after it has captured `p->payload`: the
notification of a packet completed in between is erased. In paced runs this is the only way to lose a
block (`Kept`).
-/

namespace FpgaLabor.Host

/-- The system, with the number of packets completed when the last call began, and when the last call
that has evaluated its `if` and, if it held, captured the block began. -/
structure Watched where
  state : State
  begun : ℕ
  served : ℕ

/-- What is watched after an event that leads to the state `s`. -/
def Watched.after (w : Watched) (e : Event) (s : State) : Watched where
  state := s
  begun :=
    match e with
    | .transferData => w.state.completed.length
    | _ => w.begun
  served :=
    match e, w.state.pc with
    | .exec _, .condition => if w.state.mustSend then w.served else w.begun
    | .exec _, .assign _ => w.begun
    | _, _ => w.served

/-- One step of the system, watched. -/
def watch (iocMask : BitVec 32) (w : Watched) (e : Event) : Option Watched :=
  (step iocMask w.state e).map (w.after e)

/-- Streaming is enabled whenever the `if` is evaluated; `pbuf_alloc` and `udp_sendto` succeed. -/
def steady (w : Watched) : Event → Bool
  | .exec ok =>
    match w.state.pc with
    | .condition => w.state.session.audioTransferEnabled && w.state.session.activePcb != 0
    | .alloc _ | .sending _ => ok
    | _ => true
  | _ => true

/-- An IOC interrupt other than the first comes after a call that began since the one before it. -/
def paced (iocMask : BitVec 32) (w : Watched) : Event → Bool
  | .irq irqStatus => irqStatus &&& iocMask == 0 || w.served == w.state.completed.length
  | _ => true

/-- The steps of the runs in which the main loop keeps up. -/
def pacedStep (iocMask : BitVec 32) : Watched → Event → Option Watched :=
  Lts.restrict (watch iocMask) fun w e => steady w e && paced iocMask w e

/-- A call that clears the flag has not been interrupted by an IOC since it captured `p->payload`. -/
def undisturbed (w : Watched) : Event → Bool
  | .exec _ =>
    match w.state.pc with
    | .clearData (some p) => p.packet == w.state.completed.length
    | _ => true
  | _ => true

/-- A call that clears the flag clears the notification of a block that was sent. -/
def ClearsSent (w : Watched) : Event → Prop
  | .exec _ =>
    match w.state.pc with
    | .clearData _ => w.state.completed.length ∈ w.state.sends.map fun snd => snd.packet
    | _ => True
  | _ => True

variable {iocMask : BitVec 32} {w w' : Watched} {s s' : State}

@[simp] theorem after_state (w : Watched) (e : Event) (s : State) : (w.after e s).state = s := rfl

theorem pacedStep_eq_some {e : Event} (h : pacedStep iocMask w e = some w') :
    steady w e = true ∧ paced iocMask w e = true ∧ ∃ s, step iocMask w.state e = some s ∧ w' = w.after e s := by
  obtain ⟨hguard, hwatch⟩ := Lts.restrict_eq_some.mp h
  rw [Bool.and_eq_true] at hguard
  obtain ⟨s, hs, rfl⟩ := Option.map_eq_some_iff.mp hwatch
  exact ⟨hguard.1, hguard.2, s, hs, rfl⟩

/-! ### Nothing is lost in undisturbed runs -/

/-- All blocks before the newest are assigned; the newest one is too, or it is notified and no call that
began after it has been served. No call is without a pbuf. -/
structure Kept (w : Watched) : Prop where
  older : ∀ k, 1 ≤ k → k < w.state.completed.length → k ∈ assigned w.state
  newest : 1 ≤ w.state.completed.length → w.state.completed.length ∈ assigned w.state ∨
    (w.state.dma.dmaDataAvailable = true ∧ w.served < w.state.completed.length)
  pbuf : w.state.pc ≠ .clearData none

theorem Kept.congr (h : Kept w) (hassigned : assigned w'.state = assigned w.state)
    (hcompleted : w'.state.completed = w.state.completed)
    (hflag : w'.state.dma.dmaDataAvailable = w.state.dma.dmaDataAvailable) (hserved : w'.served = w.served)
    (hpbuf : w'.state.pc ≠ .clearData none) : Kept w' where
  older := by
    rw [hassigned, hcompleted]
    exact h.older
  newest := by
    rw [hassigned, hcompleted, hflag, hserved]
    exact h.newest
  pbuf := hpbuf

theorem Kept.of_assigned (h : Kept w) (hassigned : ∀ a ∈ assigned w.state, a ∈ assigned w'.state)
    (hcompleted : w'.state.completed = w.state.completed)
    (hnewest : 1 ≤ w.state.completed.length → w.state.completed.length ∈ assigned w'.state)
    (hpbuf : w'.state.pc ≠ .clearData none) : Kept w' where
  older k hk hlt := hassigned k (h.older k hk (hcompleted ▸ hlt))
  newest hk := .inl (by rw [hcompleted]; exact hnewest (hcompleted ▸ hk))
  pbuf := hpbuf

theorem Kept.handOver (h : Kept w) (hserved : w.served = w.state.completed.length) :
    Kept { w with state := w.state.handOver } where
  older k hk hlt := by
    simp only [State.length_completed_handOver] at hlt
    rcases Nat.lt_succ_iff_lt_or_eq.mp hlt with hold | rfl
    · exact h.older k hk hold
    · rcases h.newest hk with hmem | ⟨-, hlost⟩
      · exact hmem
      · omega
  newest _ := by
    refine .inr ⟨rfl, ?_⟩
    simp only [State.length_completed_handOver]
    omega
  pbuf := h.pbuf

theorem Kept.exec (horder : Order w.state) (h : Kept w) {ok : Bool}
    (hsteady : steady w (.exec ok) = true) (hundisturbed : undisturbed w (.exec ok) = true)
    (hs : Host.exec w.state ok = some s) : Kept (w.after (.exec ok) s) := by
  unfold steady at hsteady
  unfold undisturbed at hundisturbed
  cases exec_statement hs with
  | skip hpc hmust =>
    -- streaming is on, so the flag was down and the newest block is assigned
    simp only [hpc] at hsteady
    have hflag : w.state.dma.dmaDataAvailable = false := by
      rw [State.mustSend, hsteady, Bool.true_and] at hmust
      exact hmust
    refine h.of_assigned (by simp [assigned, hpc, Pc.pending]) rfl (fun hk => ?_) (by simp)
    rcases h.newest hk with hmem | ⟨hset, -⟩
    · simpa [assigned, hpc, Pc.pending] using hmem
    · rw [hflag] at hset
      cases hset
  | enter hpc hmust =>
    exact h.congr (by simp [assigned, hpc, Pc.pending]) rfl rfl (by simp [Watched.after, hpc, hmust]) (by simp)
  | invalidate hpc =>
    exact h.congr (by simp [assigned, hpc, Pc.pending]) rfl rfl (by simp [Watched.after, hpc]) (by simp)
  | alloc hpc hok =>
    exact h.congr (by simp [assigned, hpc, Pc.pending]) rfl rfl (by simp [Watched.after, hpc]) (by simp)
  | noBuffer hpc hok =>
    rw [hpc] at hsteady
    rw [show ok = true from hsteady] at hok
    cases hok
  | assign hpc =>
    refine h.of_assigned (fun a ha => ?_) rfl (fun _ => ?_) (by simp)
    · rw [assigned_of_not_pending (by rw [hpc]; rfl)] at ha
      exact List.mem_append_left _ ha
    · exact List.mem_append_right _ (List.mem_singleton_self _)
  | sendto hpc snd hsnd =>
    subst hsnd
    exact h.congr (by simp [assigned, hpc, Pc.pending]) rfl rfl (by simp [Watched.after, hpc]) (by simp)
  | sent hpc =>
    exact h.congr (by simp [assigned, hpc, Pc.pending]) rfl rfl (by simp [Watched.after, hpc]) (by simp)
  | free hpc =>
    exact h.congr (by simp [assigned, hpc, Pc.pending]) rfl rfl (by simp [Watched.after, hpc]) (by simp)
  | @clearData q hpc =>
    -- the call was not interrupted, so the notification it clears is that of the block it has sent
    cases q with
    | none => exact absurd hpc h.pbuf
    | some p =>
      rw [hpc] at hundisturbed
      have hp : p.packet = w.state.completed.length := beq_iff_eq.mp hundisturbed
      have hmem := List.mem_of_getLast? (horder.last p (by rw [hpc]; rfl))
      have hsame : assigned { w.state with
          pc := .clearNew, dma := { w.state.dma with dmaDataAvailable := false } } = assigned w.state := by
        simp [assigned, hpc, Pc.pending]
      refine h.of_assigned (fun a ha => hsame ▸ ha) rfl (fun _ => ?_) (by simp)
      exact hp ▸ hsame ▸ hmem
  | clearNew hpc =>
    exact h.congr (by simp [assigned, hpc, Pc.pending]) rfl rfl (by simp [Watched.after, hpc]) (by simp)

theorem Kept.step (horder : Order w.state) (h : Kept w) {e : Event}
    (hundisturbed : undisturbed w e = true) (hs : pacedStep iocMask w e = some w') : Kept w' := by
  obtain ⟨hsteady, hpaced, s, hstep, rfl⟩ := pacedStep_eq_some hs
  cases e with
  | exec ok => exact h.exec horder hsteady hundisturbed hstep
  | beat word =>
    obtain ⟨-, rfl⟩ := step_beat hstep
    exact h.congr rfl rfl rfl rfl h.pbuf
  | irq irqStatus =>
    rcases step_irq hstep with ⟨-, rfl⟩ | ⟨hioc, -, rfl⟩
    · exact h.congr rfl rfl rfl rfl h.pbuf
    · apply h.handOver
      simp only [paced, Bool.or_eq_true, beq_iff_eq] at hpaced
      exact hpaced.resolve_left hioc
  | recv pcb p addr port =>
    obtain ⟨-, rfl⟩ := step_recv hstep
    exact h.congr rfl rfl rfl rfl h.pbuf
  | setTransferFlag =>
    obtain ⟨-, rfl⟩ := step_setTransferFlag hstep
    exact h.congr rfl rfl rfl rfl h.pbuf
  | transferData =>
    obtain ⟨hpc, rfl⟩ := step_transferData hstep
    exact h.congr (by simp [assigned, hpc, Pc.pending]) rfl rfl rfl (by simp)

/-! ### What is lost otherwise -/

theorem le_of_getLast? {l : List ℕ} (hsorted : l.Pairwise (· < ·)) {a b : ℕ} (hb : l.getLast? = some b)
    (ha : a ∈ l) : a ≤ b := by
  obtain ⟨init, rfl⟩ := List.getLast?_eq_some_iff.mp hb
  rcases List.mem_append.mp ha with hinit | hlast
  · exact Nat.le_of_lt ((List.pairwise_append.mp hsorted).2.2 a hinit b (List.mem_singleton_self b))
  · exact Nat.le_of_eq (List.mem_singleton.mp hlast)

theorem Order.watch {e : Event} (h : Order w.state) (hs : pacedStep iocMask w e = some w') :
    Order w'.state := by
  obtain ⟨-, -, s, hstep, rfl⟩ := pacedStep_eq_some hs
  exact h.step hstep

/-- A notification cleared is that of a sent block just if no packet was completed since the capture. -/
theorem undisturbed_of_clearsSent (h : Order w.state) {e : Event} (hsent : ClearsSent w e) :
    undisturbed w e = true := by
  cases e with
  | exec ok =>
    unfold ClearsSent at hsent
    simp only [undisturbed]
    split
    · rename_i p hpc
      simp only [hpc] at hsent
      rw [← assigned_of_not_pending (by rw [hpc]; rfl)] at hsent
      have hlast := h.last p (by rw [hpc]; rfl)
      have hge := le_of_getLast? h.sorted hlast hsent
      have hle := h.le _ (List.mem_of_getLast? hlast)
      exact beq_iff_eq.mpr (Nat.le_antisymm hle hge)
    · rfl
  | _ => rfl

theorem clearsSent_of_undisturbed (horder : Order w.state) (h : Kept w) {e : Event}
    (hundisturbed : undisturbed w e = true) : ClearsSent w e := by
  cases e with
  | exec ok =>
    unfold undisturbed at hundisturbed
    simp only [ClearsSent]
    split
    · rename_i q hpc
      cases q with
      | none => exact absurd hpc h.pbuf
      | some p =>
        simp only [hpc] at hundisturbed
        rw [← assigned_of_not_pending (by rw [hpc]; rfl), ← beq_iff_eq.mp hundisturbed]
        exact List.mem_of_getLast? (horder.last p (by rw [hpc]; rfl))
    · trivial
  | _ => trivial

/-- **No lost block.** In a run that keeps up, from any state of the main loop: every block handed over
but the last is sent exactly once (the block a call is about to send counted), and each clearing of the
flag clears the notification of a block that was sent, exactly when no call that clears the flag was
interrupted by an IOC between `p->payload = dma_ptr_eth` and `dma_data_available = 0`. -/
theorem blocks_sent_once_iff (iocMask : BitVec 32) (s : State) (hpc : s.pc = .mainLoop)
    (hcompleted : s.completed = []) (hsends : s.sends = []) (es : List Event) (w : Watched)
    (hrun : Lts.run (pacedStep iocMask) ⟨s, 0, 0⟩ es = some w) :
    ((∀ k, 1 ≤ k → k < w.state.completed.length → (assigned w.state).count k = 1) ∧
        Lts.Along (pacedStep iocMask) ClearsSent ⟨s, 0, 0⟩ es) ↔
      Lts.Along (pacedStep iocMask) (fun w e => undisturbed w e = true) ⟨s, 0, 0⟩ es := by
  have hassigned : assigned s = [] := by
    rw [assigned, hsends, hpc]
    rfl
  have horder : Order s := order_of_assigned_nil hpc hassigned
  refine ⟨?_, ?_⟩
  · rintro ⟨-, hsent⟩
    exact hsent.imp (I := fun w => Order w.state) (fun w e w' h _ hs => h.watch hs)
      (fun w e h hsent => undisturbed_of_clearsSent h hsent) horder
  · intro hundisturbed
    have hkept : Kept ⟨s, 0, 0⟩ := by
      refine ⟨fun k _ hlt => ?_, fun hle => ?_, by simp [hpc]⟩
      · rw [hcompleted] at hlt
        cases hlt
      · rw [hcompleted] at hle
        cases hle
    have hstep : ∀ w e w', Order w.state ∧ Kept w → undisturbed w e = true →
        pacedStep iocMask w e = some w' → Order w'.state ∧ Kept w' :=
      fun w e w' h hun hs => ⟨h.1.watch hs, h.2.step h.1 hun hs⟩
    obtain ⟨hlast, hall⟩ := hundisturbed.run_induction hstep ⟨horder, hkept⟩ hrun
    refine ⟨fun k hk hlt => ?_, ?_⟩
    · exact List.count_eq_one_of_mem (hlast.sorted.imp Nat.ne_of_lt) (hall.older k hk hlt)
    · exact hundisturbed.imp hstep (fun w e h hun => clearsSent_of_undisturbed h.1 h.2 hun)
        ⟨horder, hkept⟩

/-! ### A lost block -/

theorem run_packetEvents_paced {packet : Packet} {irqStatus : BitVec 32} (hlen : packet.length = beats)
    (hioc : irqStatus &&& iocMask ≠ 0) (hfilling : w.state.filling = [])
    (hserved : w.served = w.state.completed.length) :
    ∃ mem, Lts.run (pacedStep iocMask) w (packetEvents packet irqStatus) =
      some { w with state := { w.state with mem := mem, filling := packet }.handOver } := by
  refine run_packetEvents_watched (pacedStep iocMask) (fun s => { w with state := s }) _ hlen hfilling
    (fun _ _ => rfl) ?_
  intro mem
  refine Lts.restrict_eq_some.mpr ⟨?_, Option.map_eq_some_iff.mpr ⟨_, step_irq_of_complete hioc hlen, rfl⟩⟩
  simp only [steady, paced, Bool.true_and, Bool.or_eq_true, beq_iff_eq]
  exact .inr hserved

/-- A session that streams, before the first packet. -/
def streaming : State := { start 0 16384 (fun _ => 0) with session := ⟨1, 0xc0a80102, 5000, true⟩ }

/-- The second packet is completed between the capture of the first one and the clearing of the flag; the
call before the third packet finds the flag down. -/
def lostBlock : List Event :=
  packetEvents (List.replicate beats 0) 0x1000 ++
    ([.transferData, .exec true, .exec true, .exec true, .exec true] ++
      (packetEvents (List.replicate beats 0) 0x1000 ++
        ([.exec true, .exec true, .exec true, .exec true, .exec true, .transferData, .exec true] ++
          packetEvents (List.replicate beats 0) 0x1000)))

theorem run_lostBlock : ∃ w, Lts.run (pacedStep 0x1000) ⟨streaming, 0, 0⟩ lostBlock = some w ∧
    w.state.completed.length = 3 ∧ assigned w.state = [1] := by
  have hpacket : ∀ w : Watched, w.state.filling = [] → w.served = w.state.completed.length →
      ∃ mem, Lts.run (pacedStep 0x1000) w (packetEvents (List.replicate beats 0) 0x1000) =
        some { w with state := { w.state with mem := mem, filling := List.replicate beats 0 }.handOver } :=
    fun w => run_packetEvents_paced List.length_replicate (by decide)
  obtain ⟨mem₁, h₁⟩ := hpacket ⟨streaming, 0, 0⟩ rfl rfl
  set s₁ := State.handOver { streaming with mem := mem₁, filling := List.replicate beats 0 }
  obtain ⟨mem₂, h₂⟩ := hpacket ⟨{ s₁ with pc := .sendto 0 ⟨0, 1⟩ }, 1, 1⟩ rfl rfl
  set s₂ := State.handOver
    { s₁ with pc := .sendto 0 ⟨0, 1⟩, mem := mem₂, filling := List.replicate beats 0 }
  obtain ⟨mem₃, h₃⟩ := hpacket ⟨{ s₂ with
    pc := .mainLoop
    newDataAvailable := false
    dma := { s₂.dma with dmaDataAvailable := false }
    sends := [⟨⟨0, 1⟩, 1, 0xc0a80102, 5000, 0⟩] }, 2, 2⟩ rfl rfl
  exact ⟨_, Lts.run_append.mpr ⟨_, h₁, Lts.run_append.mpr ⟨_, rfl, Lts.run_append.mpr ⟨_, h₂,
    Lts.run_append.mpr ⟨_, rfl, h₃⟩⟩⟩⟩, rfl, rfl⟩

/-- Block 2 of the three handed over is never sent. -/
theorem blocks_sent_once_fails :
    ¬ ∀ (iocMask : BitVec 32) (s : State), s.pc = .mainLoop → s.completed = [] → s.sends = [] →
      ∀ (es : List Event) (w : Watched), Lts.run (pacedStep iocMask) ⟨s, 0, 0⟩ es = some w →
        ∀ k, 1 ≤ k → k < w.state.completed.length → (assigned w.state).count k = 1 := by
  intro hclaim
  obtain ⟨w, hrun, hcompleted, hassigned⟩ := run_lostBlock
  have hcount := hclaim 0x1000 streaming rfl rfl rfl lostBlock w hrun 2 (by decide)
    (by rw [hcompleted]; decide)
  rw [hassigned] at hcount
  cases hcount

theorem blocks_sent_once_iff_lostBlock :
    ¬ Lts.Along (pacedStep 0x1000) (fun w e => undisturbed w e = true) ⟨streaming, 0, 0⟩ lostBlock := by
  intro hundisturbed
  obtain ⟨w, hrun, hcompleted, hassigned⟩ := run_lostBlock
  have hcount := ((blocks_sent_once_iff 0x1000 streaming rfl rfl rfl lostBlock w hrun).2 hundisturbed).1 2
    (by decide) (by rw [hcompleted]; decide)
  rw [hassigned] at hcount
  cases hcount

end FpgaLabor.Host
