import FpgaLabor.Host.Application
import FpgaLabor.Host.RingWalk

/-!
# From the DMA ring to the datagram

Three invariants of every interleaving, for blocks that a packet fits into. The ring holds the last `n - 1`
packets completed, and the pointers are those of the block under DMA and of the block before it (`RingInv`).
A call that has found the flag set works on a completed packet, and the payload it has captured is that
packet's block (`CallInv`). The packets captured so far are in increasing order, and while the flag is set
and no call has seen it they are all older than the newest one (`Order`).
-/

namespace FpgaLabor.Host

open BlockRing (slot stops_mul Apart block RingHolds slot_apart slot_zero ringHolds_nil)

/-! ### Where a call stands -/

/-- No call is between its `if` and the clearing of the flag. -/
def Pc.between : Pc → Bool
  | .mainLoop | .condition | .clearNew => true
  | _ => false

/-- A call has found the flag set and has not captured the block yet. -/
def Pc.committed : Pc → Bool
  | .invalidate | .alloc _ | .assign _ => true
  | _ => false

/-- The pbuf of a call, from the assignment of `p->payload` to the clearing of the flag. -/
def Pc.captured : Pc → Option PbufRef
  | .sendto _ p | .free p => some p
  | .sending snd => some snd.toPbufRef
  | .clearData p => p
  | _ => none

/-- The packet of a call that is about to send it. -/
def Pc.pending : Pc → List ℕ
  | .sendto _ p => [p.packet]
  | _ => []

/-- The packets of all sends, that of a call about to send included. -/
def assigned (s : State) : List ℕ := s.sends.map (fun snd => snd.packet) ++ s.pc.pending

variable {iocMask : BitVec 32} {buff n t : ℕ} {s s' : State}

/-! ### The ring -/

/-- The ring of `n` blocks of `t` bytes, the memory and the pointers. -/
structure RingInv (buff n t : ℕ) (s : State) : Prop where
  holds : RingHolds s.mem buff n t beats s.completed s.filling
  armed : s.armed.addr = slot buff n t s.completed.length
  axi : s.dma.dmaPtrAxi = slot buff n t s.completed.length
  eth : ∀ k, s.completed.length = k + 1 → s.dma.dmaPtrEth = slot buff n t k
  notified : s.dma.dmaDataAvailable = true → 0 < s.completed.length
  gBuff : s.dma.gBuff = buff
  gBuffSize : s.dma.gBuffSize = n * t
  gTransferSize : s.dma.gTransferSize = t

theorem ringInv_start (buff n t : ℕ) (mem : ℕ → BitVec 32) :
    RingInv buff n t (startRing buff (n * t) t mem) where
  holds := ringHolds_nil mem buff n t beats
  armed := slot_zero.symm
  axi := slot_zero.symm
  eth k hk := by cases hk
  notified h := by cases h
  gBuff := rfl
  gBuffSize := rfl
  gTransferSize := rfl

theorem RingInv.beat (ht : 4 * beats ≤ t) (h : RingInv buff n t s) {word : BitVec 32}
    (hs : step iocMask s (.beat word) = some s') : RingInv buff n t s' := by
  obtain ⟨hlen, rfl⟩ := step_beat hs
  refine ⟨?_, h.armed, h.axi, h.eth, h.notified, h.gBuff, h.gBuffSize, h.gTransferSize⟩
  rw [h.armed]
  exact h.holds.store ht hlen word

theorem RingInv.pointers (hn : 0 < n) (ht : 0 < t) (h : RingInv buff n t s) :
    Pointers buff (n * t) t s.completed.length s.dma := by
  refine ⟨h.gBuff, h.gBuffSize, h.gTransferSize, ?_, ?_⟩
  · rw [stops_mul hn ht]
    exact h.axi
  · rw [stops_mul hn ht]
    exact h.eth

theorem RingInv.irq (hn : 0 < n) (ht : 0 < t) (h : RingInv buff n t s) {irqStatus : BitVec 32}
    (hs : step iocMask s (.irq irqStatus) = some s') : RingInv buff n t s' := by
  rcases step_irq hs with ⟨-, rfl⟩ | ⟨-, hlen, rfl⟩
  · exact h
  · have hcount := s.length_completed_handOver
    obtain ⟨hbuff, hsize, htransfer, haxi, heth⟩ := (h.pointers hn ht).handOver
    rw [← hcount, stops_mul hn ht] at haxi heth
    exact ⟨h.holds.complete hlen, haxi, haxi, heth, fun _ => hcount ▸ Nat.succ_pos _, hbuff, hsize, htransfer⟩

theorem RingInv.congr (h : RingInv buff n t s) (hmem : s'.mem = s.mem) (harmed : s'.armed = s.armed)
    (hfilling : s'.filling = s.filling) (hcompleted : s'.completed = s.completed)
    (hdma : s'.dma = s.dma ∨ s'.dma = { s.dma with dmaDataAvailable := false }) : RingInv buff n t s' := by
  obtain ⟨hholds, harm, haxi, heth, hnotified, hbuff, hsize, htransfer⟩ := h
  rw [← hmem, ← hcompleted, ← hfilling] at hholds
  rw [← harmed, ← hcompleted] at harm
  rw [← hcompleted] at haxi heth hnotified
  rcases hdma with hdma | hdma
  · rw [← hdma] at haxi heth hnotified hbuff hsize htransfer
    exact ⟨hholds, harm, haxi, heth, hnotified, hbuff, hsize, htransfer⟩
  · refine ⟨hholds, harm, ?_, ?_, ?_, ?_, ?_, ?_⟩ <;> rw [hdma]
    · exact haxi
    · exact heth
    · exact nofun
    · exact hbuff
    · exact hsize
    · exact htransfer

theorem RingInv.step (hn : 0 < n) (ht : 4 * beats ≤ t) (h : RingInv buff n t s) {e : Event}
    (hs : Host.step iocMask s e = some s') : RingInv buff n t s' := by
  cases e with
  | beat word => exact h.beat ht hs
  | irq irqStatus => exact h.irq hn (Nat.lt_of_lt_of_le (by decide) ht) hs
  | _ =>
    obtain ⟨hmem, harmed, hfilling, hcompleted, hdma⟩ := step_ring hs nofun nofun
    exact h.congr hmem harmed hfilling hcompleted hdma

/-! ### The call under way -/

/-- `p->payload` is the block of the packet `p.packet`, one of the first `k`. -/
def PbufRef.Of (buff n t k : ℕ) (p : PbufRef) : Prop :=
  ∃ i, p.packet = i + 1 ∧ i < k ∧ p.payload = slot buff n t i

/-- A call past its `if` has a packet to send, and what it has captured is the block of one. -/
structure CallInv (buff n t : ℕ) (s : State) : Prop where
  committed : s.pc.committed = true → 0 < s.completed.length
  captured : ∀ p, s.pc.captured = some p → p.Of buff n t s.completed.length
  sending : ∀ snd, s.pc = .sending snd → s.sends.getLast? = some snd

theorem CallInv.mono (h : CallInv buff n t s) (hpc : s'.pc = s.pc) (hsends : s'.sends = s.sends)
    (hle : s.completed.length ≤ s'.completed.length) : CallInv buff n t s' where
  committed hcom := Nat.lt_of_lt_of_le (h.committed (hpc ▸ hcom)) hle
  captured p hp := by
    obtain ⟨i, hpacket, hi, hpayload⟩ := h.captured p (hpc ▸ hp)
    exact ⟨i, hpacket, Nat.lt_of_lt_of_le hi hle, hpayload⟩
  sending snd hsnd := by
    rw [hsends]
    exact h.sending snd (hpc ▸ hsnd)

theorem CallInv.exec (hring : RingInv buff n t s) (h : CallInv buff n t s) {ok : Bool}
    (hs : Host.exec s ok = some s') : CallInv buff n t s' := by
  cases exec_statement hs with
  | enter hpc hmust =>
    refine ⟨fun _ => hring.notified ?_, nofun, nofun⟩
    rw [State.mustSend, Bool.and_eq_true] at hmust
    exact hmust.2
  | invalidate hpc => exact ⟨fun _ => h.committed (by rw [hpc]; rfl), nofun, nofun⟩
  | alloc hpc hok => exact ⟨fun _ => h.committed (by rw [hpc]; rfl), nofun, nofun⟩
  | assign hpc =>
    refine ⟨nofun, fun p hp => ?_, nofun⟩
    cases hp
    obtain ⟨k, hk⟩ := Nat.exists_eq_succ_of_ne_zero (Nat.ne_of_gt (h.committed (by rw [hpc]; rfl)))
    exact ⟨k, hk, by rw [hk]; exact Nat.lt_succ_self k, hring.eth k hk⟩
  | sendto hpc snd hsnd =>
    subst hsnd
    refine ⟨nofun, fun q hq => h.captured q (by rw [hpc]; exact hq), fun snd hsnd => ?_⟩
    cases hsnd
    exact List.getLast?_concat
  | sent hpc => exact ⟨nofun, fun q hq => h.captured q (by rw [hpc]; exact hq), nofun⟩
  | free hpc => exact ⟨nofun, fun q hq => h.captured q (by rw [hpc]; exact hq), nofun⟩
  | skip => exact ⟨nofun, nofun, nofun⟩
  | noBuffer => exact ⟨nofun, nofun, nofun⟩
  | clearData => exact ⟨nofun, nofun, nofun⟩
  | clearNew => exact ⟨nofun, nofun, nofun⟩

theorem CallInv.step (hring : RingInv buff n t s) (h : CallInv buff n t s) {e : Event}
    (hs : Host.step iocMask s e = some s') : CallInv buff n t s' := by
  cases e with
  | beat word =>
    obtain ⟨-, rfl⟩ := step_beat hs
    exact h.mono rfl rfl (Nat.le_refl _)
  | irq irqStatus =>
    rcases step_irq hs with ⟨-, rfl⟩ | ⟨-, -, rfl⟩
    · exact h
    · refine h.mono rfl rfl ?_
      rw [State.length_completed_handOver]
      exact Nat.le_succ _
  | recv pcb p addr port =>
    obtain ⟨-, rfl⟩ := step_recv hs
    exact h.mono rfl rfl (Nat.le_refl _)
  | setTransferFlag =>
    obtain ⟨-, rfl⟩ := step_setTransferFlag hs
    exact h.mono rfl rfl (Nat.le_refl _)
  | transferData =>
    obtain ⟨-, rfl⟩ := step_transferData hs
    exact ⟨nofun, nofun, nofun⟩
  | exec ok => exact h.exec hring hs

/-! ### The order of the sends -/

/-- The packets assigned so far increase. While the newest packet is notified and no call is past its
`if`, or a call is committed, none of them is the newest one. -/
structure Order (s : State) : Prop where
  sorted : (assigned s).Pairwise (· < ·)
  le : ∀ a ∈ assigned s, a ≤ s.completed.length
  fresh : (s.pc.between = true ∧ s.dma.dmaDataAvailable = true) ∨ s.pc.committed = true →
    ∀ a ∈ assigned s, a < s.completed.length
  last : ∀ p, s.pc.captured = some p → (assigned s).getLast? = some p.packet

theorem order_of_assigned_nil (hpc : s.pc = .mainLoop) (hnil : assigned s = []) : Order s := by
  refine ⟨?_, ?_, fun _ => ?_, fun p hp => ?_⟩
  · rw [hnil]
    exact .nil
  · rw [hnil]
    exact nofun
  · rw [hnil]
    exact nofun
  · rw [hpc] at hp
    cases hp

theorem Order.congr (h : Order s) (hassigned : assigned s' = assigned s)
    (hcompleted : s'.completed = s.completed)
    (hfresh : (s'.pc.between = true ∧ s'.dma.dmaDataAvailable = true) ∨ s'.pc.committed = true →
      (s.pc.between = true ∧ s.dma.dmaDataAvailable = true) ∨ s.pc.committed = true)
    (hlast : ∀ p, s'.pc.captured = some p → s.pc.captured = some p) : Order s' where
  sorted := hassigned ▸ h.sorted
  le := by
    rw [hassigned, hcompleted]
    exact h.le
  fresh hf := by
    rw [hassigned, hcompleted]
    exact h.fresh (hfresh hf)
  last p hp := by
    rw [hassigned]
    exact h.last p (hlast p hp)

theorem assigned_of_not_pending (hpc : s.pc.pending = []) :
    assigned s = s.sends.map (fun snd => snd.packet) := by
  unfold assigned
  rw [hpc, List.append_nil]

theorem Order.handOver (h : Order s) : Order s.handOver := by
  have hlt : ∀ a ∈ assigned s, a < s.handOver.completed.length := by
    intro a ha
    rw [State.length_completed_handOver]
    exact Nat.lt_succ_of_le (h.le a ha)
  exact ⟨h.sorted, fun a ha => Nat.le_of_lt (hlt a ha), fun _ => hlt, h.last⟩

theorem Order.exec (h : Order s) {ok : Bool} (hs : Host.exec s ok = some s') : Order s' := by
  cases exec_statement hs with
  | skip hpc hmust =>
    exact h.congr (by simp [assigned, hpc, Pc.pending]) rfl (by simp [hpc, Pc.between, Pc.committed]) nofun
  | enter hpc hmust =>
    rw [State.mustSend, Bool.and_eq_true] at hmust
    exact h.congr (by simp [assigned, hpc, Pc.pending]) rfl
      (fun _ => .inl ⟨by rw [hpc]; rfl, hmust.2⟩) nofun
  | invalidate hpc =>
    exact h.congr (by simp [assigned, hpc, Pc.pending]) rfl (fun _ => .inr (by rw [hpc]; rfl)) nofun
  | alloc hpc hok =>
    exact h.congr (by simp [assigned, hpc, Pc.pending]) rfl (fun _ => .inr (by rw [hpc]; rfl)) nofun
  | noBuffer hpc hok =>
    exact h.congr (by simp [assigned, hpc, Pc.pending]) rfl (fun _ => .inr (by rw [hpc]; rfl)) nofun
  | assign hpc =>
    have hlt := h.fresh (.inr (by rw [hpc]; rfl))
    have hassigned : assigned s = s.sends.map (fun snd => snd.packet) :=
      assigned_of_not_pending (by rw [hpc]; rfl)
    rw [hassigned] at hlt
    refine ⟨?_, ?_, by simp [Pc.between, Pc.committed], ?_⟩
    · refine List.pairwise_append.mpr ⟨hassigned ▸ h.sorted, List.pairwise_singleton _ _, ?_⟩
      intro a ha b hb
      rw [Pc.pending, List.mem_singleton] at hb
      exact hb ▸ hlt a ha
    · intro a ha
      rcases List.mem_append.mp ha with hold | hnew
      · exact Nat.le_of_lt (hlt a hold)
      · rw [Pc.pending, List.mem_singleton] at hnew
        exact Nat.le_of_eq hnew
    · intro p hp
      cases hp
      exact List.getLast?_concat
  | sendto hpc snd hsnd =>
    subst hsnd
    exact h.congr (by simp [assigned, hpc, Pc.pending]) rfl (by simp [Pc.between, Pc.committed])
      (by simp [hpc, Pc.captured])
  | sent hpc =>
    exact h.congr (by simp [assigned, hpc, Pc.pending]) rfl (by simp [Pc.between, Pc.committed])
      (by simp [hpc, Pc.captured])
  | free hpc =>
    exact h.congr (by simp [assigned, hpc, Pc.pending]) rfl (by simp [Pc.between, Pc.committed])
      (by simp [hpc, Pc.captured])
  | clearData hpc =>
    exact h.congr (by simp [assigned, hpc, Pc.pending]) rfl (by simp [Pc.committed]) nofun
  | clearNew hpc =>
    exact h.congr (by simp [assigned, hpc, Pc.pending]) rfl (by simp [hpc, Pc.between, Pc.committed]) nofun

theorem Order.step (h : Order s) {e : Event} (hs : Host.step iocMask s e = some s') : Order s' := by
  cases e with
  | beat word =>
    obtain ⟨-, rfl⟩ := step_beat hs
    exact h.congr rfl rfl id (fun _ => id)
  | irq irqStatus =>
    rcases step_irq hs with ⟨-, rfl⟩ | ⟨-, -, rfl⟩
    · exact h
    · exact h.handOver
  | recv pcb p addr port =>
    obtain ⟨-, rfl⟩ := step_recv hs
    exact h.congr rfl rfl id (fun _ => id)
  | setTransferFlag =>
    obtain ⟨-, rfl⟩ := step_setTransferFlag hs
    exact h.congr rfl rfl id (fun _ => id)
  | transferData =>
    obtain ⟨hpc, rfl⟩ := step_transferData hs
    exact h.congr (by simp [assigned, hpc, Pc.pending]) rfl (by simp [hpc, Pc.between, Pc.committed]) nofun
  | exec ok => exact h.exec hs

/-- All three invariants hold in every reachable state. -/
theorem reachable_invariants (hn : 0 < n) (ht : 4 * beats ≤ t) {mem : ℕ → BitVec 32} {es : List Event}
    (hrun : Lts.run (Host.step iocMask) (startRing buff (n * t) t mem) es = some s) :
    RingInv buff n t s ∧ CallInv buff n t s ∧ Order s := by
  refine Lts.run_induction (I := fun s => RingInv buff n t s ∧ CallInv buff n t s ∧ Order s) ?_
    ⟨ringInv_start buff n t mem, ⟨nofun, nofun, nofun⟩, order_of_assigned_nil rfl rfl⟩ hrun
  rintro s e s' ⟨hring, hcall, horder⟩ hs
  exact ⟨hring.step hn ht hs, hcall.step hring hs, horder.step hs⟩

/-- **The hand-off.** For a ring of `n ≥ 2` blocks and every interleaving: while `udp_sendto` runs and
fewer than `n - 1` packets have been completed since `p->payload` was assigned, the block it was given
holds exactly the packet that was the newest one then, and the DMA writes elsewhere; and the packets of
successive sends increase. -/
theorem sends_completed_packet (iocMask : BitVec 32) (buff buffSize : ℕ) (mem : ℕ → BitVec 32)
    (hdvd : 1024 ∣ buffSize) (hn : 2 ≤ buffSize / 1024) (es : List Event) (s : State)
    (hrun : Lts.run (step iocMask) (start buff buffSize mem) es = some s) :
    (∀ snd, s.pc = .sending snd → s.sends.getLast? = some snd ∧
      (s.completed.length < snd.packet + (buffSize / 1024 - 1) →
        1 ≤ snd.packet ∧ s.completed[snd.packet - 1]? = some (block s.mem beats snd.payload) ∧
        Apart 1024 snd.payload s.armed.addr)) ∧
    (s.sends.map fun snd => snd.packet).Pairwise (· < ·) := by
  obtain ⟨n, rfl⟩ := hdvd
  rw [Nat.mul_div_cancel_left n (by decide)] at hn ⊢
  rw [Nat.mul_comm, ← startRing_eq_start] at hrun
  obtain ⟨hring, hcall, horder⟩ := reachable_invariants (by omega) (le_refl _) hrun
  refine ⟨fun snd hpc => ⟨hcall.sending snd hpc, fun hfew => ?_⟩, ?_⟩
  · obtain ⟨i, hpacket, hi, hpayload⟩ := hcall.captured snd.toPbufRef (by rw [hpc]; rfl)
    rw [hpacket] at hfew ⊢
    refine ⟨Nat.succ_pos i, ?_, ?_⟩
    · rw [Nat.add_sub_cancel, List.getElem?_eq_getElem hi, hpayload,
        hring.holds.recent i _ (List.getElem?_eq_getElem hi) (by omega)]
    · rw [hpayload, hring.armed]
      exact slot_apart hi (by omega)
  · have hsorted := horder.sorted
    exact (List.pairwise_append.mp hsorted).1

/-- The second of two packets, sent from a ring of four blocks. -/
theorem sends_completed_packet_second :
    ∃ s snd, Lts.run (step 0x1000) (start 0 4096 (BitVec.ofNat 32))
        (sendAfter [countingPacket 0, countingPacket 1]) = some s ∧
      s.sends.getLast? = some snd ∧ block s.mem beats snd.payload = countingPacket 1 := by
  obtain ⟨s, snd, hrun, hpc, -, -, hpacket, hcompleted⟩ :=
    run_sendAfter [countingPacket 0, countingPacket 1] (List.cons_ne_nil _ _)
      (by simp [length_countingPacket]) 0 4096 (BitVec.ofNat 32)
  obtain ⟨hlast, hblock⟩ := (sends_completed_packet 0x1000 0 4096 (BitVec.ofNat 32) (by decide) (by decide)
    _ s hrun).1 snd hpc
  rw [hpacket, hcompleted] at hblock
  exact ⟨s, snd, hrun, hlast, (Option.some.inj (hblock (by decide)).2.1).symm⟩

end FpgaLabor.Host
