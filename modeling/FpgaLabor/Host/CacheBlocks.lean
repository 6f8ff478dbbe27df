import FpgaLabor.Host.Application
import FpgaLabor.Host.RingWalk

/-!
# The range invalidated and the range sent

`transfer_data` reads `dma_ptr_eth` once for `Xil_DCacheInvalidateRange` and once more, after
`pbuf_alloc`, for `p->payload`; both ranges are of 1024 bytes. An IOC interrupt between the two reads
moves the pointer on, and the datagram is read from a block whose cache lines were not invalidated after
the DMA had written it. What matters is the number of these interrupts, and whether the DMA is back at
the block before `udp_sendto` reads it.
-/

namespace FpgaLabor.Host

open BlockRing

/-- The words the DMA has stored so far. -/
def State.stored (s : State) : ℕ := beats * s.completed.length + s.filling.length

/-- A call has invalidated a range and not assigned `p->payload` yet. -/
def Pc.holding : Pc → Option ℕ
  | .alloc invalidated | .assign invalidated => some invalidated
  | _ => none

/-- The system, with the state in which the last call of `Xil_DCacheInvalidateRange` was made, the number
of IOC interrupts between that call and the assignment of `p->payload`, and the addresses of the blocks
the DMA has stored a beat in since that call. -/
structure Traced where
  state : State
  cleaned : State
  iocs : ℕ
  written : List ℕ

/-- The start; nothing has been invalidated yet. -/
def tracedStart (buff buffSize transferSize : ℕ) (mem : ℕ → BitVec 32) : Traced :=
  ⟨startRing buff buffSize transferSize mem, startRing buff buffSize transferSize mem, 0, []⟩

/-- What is traced after an event that leads to the state `s`. -/
def Traced.after (iocMask : BitVec 32) (w : Traced) (e : Event) (s : State) : Traced where
  state := s
  cleaned :=
    match e, w.state.pc with
    | .exec _, .invalidate => w.state
    | _, _ => w.cleaned
  iocs :=
    match e, w.state.pc with
    | .exec _, .invalidate => 0
    | .irq irqStatus, pc =>
      if pc.holding.isSome && irqStatus &&& iocMask != 0 then w.iocs + 1 else w.iocs
    | _, _ => w.iocs
  written :=
    match e, w.state.pc with
    | .exec _, .invalidate => []
    | .beat _, _ => w.state.armed.addr :: w.written
    | _, _ => w.written

/-- One step of the system, traced. -/
def trace (iocMask : BitVec 32) (w : Traced) (e : Event) : Option Traced :=
  (step iocMask w.state e).map (w.after iocMask e)

/-- `P` holds of the range invalidated and of the pbuf whenever `udp_sendto` is called. -/
def AtSend (P : Traced → ℕ → PbufRef → Prop) (w : Traced) : Event → Prop
  | .exec _ =>
    match w.state.pc with
    | .sendto invalidated p => P w invalidated p
    | _ => True
  | _ => True

/-- The range invalidated is the range sent. -/
def SameRange (_ : Traced) (invalidated : ℕ) (p : PbufRef) : Prop := invalidated = p.payload

/-- It is, and the DMA has not written the block since it was invalidated. -/
def Clean (w : Traced) (invalidated : ℕ) (p : PbufRef) : Prop :=
  invalidated = p.payload ∧ p.payload ∉ w.written

/-- The IOC interrupts between the two reads of `dma_ptr_eth` lead around the ring. -/
def WholeLaps (buffSize transferSize : ℕ) (w : Traced) (_ : ℕ) (_ : PbufRef) : Prop :=
  stops buffSize transferSize ∣ w.iocs

/-- There are none, or the ring is of one block and the only one belongs to a packet whose beats had all
been stored when the range was invalidated. -/
def NoHandOver (buffSize transferSize : ℕ) (w : Traced) (_ : ℕ) (_ : PbufRef) : Prop :=
  w.iocs = 0 ∨ (stops buffSize transferSize = 1 ∧ w.iocs = 1 ∧ w.cleaned.filling.length = beats)

/-- No beat has been stored since, or none a lap after the block was handed over. -/
def NotLapped (buffSize transferSize : ℕ) (w : Traced) (_ : ℕ) (_ : PbufRef) : Prop :=
  w.state.stored ≤
    max w.cleaned.stored (beats * (w.cleaned.completed.length - 1 + stops buffSize transferSize))

variable {iocMask : BitVec 32} {buff buffSize transferSize : ℕ} {w w' : Traced} {s : State}

@[simp] theorem Traced.after_state (iocMask : BitVec 32) (w : Traced) (e : Event) (s : State) :
    (w.after iocMask e s).state = s := rfl

theorem Traced.after_invalidate {ok : Bool} (hpc : w.state.pc = .invalidate) (s : State) :
    w.after iocMask (.exec ok) s = ⟨s, w.state, 0, []⟩ := by
  simp only [Traced.after, hpc]

theorem Traced.after_exec {ok : Bool} (hpc : w.state.pc ≠ .invalidate) (s : State) :
    w.after iocMask (.exec ok) s = ⟨s, w.cleaned, w.iocs, w.written⟩ := by
  unfold Traced.after
  generalize w.state.pc = pc at hpc ⊢
  cases pc with
  | invalidate => exact absurd rfl hpc
  | _ => rfl

/-! ### What a call holds -/

/-- `invalidated` is the block handed over when the range was invalidated, and `packet` counts the packets
completed `m` IOC interrupts later. -/
structure Held (buff buffSize transferSize m : ℕ) (cleaned : State) (invalidated packet : ℕ) : Prop where
  range : ∀ k, cleaned.completed.length = k + 1 →
    invalidated = slot buff (stops buffSize transferSize) transferSize k
  pos : 0 < cleaned.completed.length
  packet : packet = cleaned.completed.length + m
  filling : cleaned.filling.length ≤ beats

/-- A call that has set `p->payload` to the block of its packet. -/
structure Assigned (buff buffSize transferSize m : ℕ) (cleaned : State) (invalidated : ℕ) (p : PbufRef)
    (completed : ℕ) : Prop where
  held : Held buff buffSize transferSize m cleaned invalidated p.packet
  payload : ∀ j, p.packet = j + 1 → p.payload = slot buff (stops buffSize transferSize) transferSize j
  le : p.packet ≤ completed

/-- The pointers, and what the call under way has read from them. -/
structure CacheInv (buff buffSize transferSize : ℕ) (w : Traced) : Prop where
  pointers : Pointers buff buffSize transferSize w.state.completed.length w.state.dma
  filling : w.state.filling.length ≤ beats
  notified : w.state.dma.dmaDataAvailable = true → 0 < w.state.completed.length
  committed : w.state.pc = .invalidate → 0 < w.state.completed.length
  holding : ∀ r, w.state.pc.holding = some r →
    Held buff buffSize transferSize w.iocs w.cleaned r w.state.completed.length
  sendto : ∀ r p, w.state.pc = .sendto r p →
    Assigned buff buffSize transferSize w.iocs w.cleaned r p w.state.completed.length

theorem cacheInv_tracedStart (buff buffSize transferSize : ℕ) (mem : ℕ → BitVec 32) :
    CacheInv buff buffSize transferSize (tracedStart buff buffSize transferSize mem) where
  pointers := pointers_dmaItInit zeroGlobals buff buffSize transferSize
  filling := Nat.zero_le _
  notified h := by cases h
  committed h := by cases h
  holding r hr := by cases hr
  sendto r p hp := by cases hp

theorem CacheInv.congr (h : CacheInv buff buffSize transferSize w)
    (hcompleted : w'.state.completed = w.state.completed) (hfilling : w'.state.filling.length ≤ beats)
    (hdma : w'.state.dma = w.state.dma ∨ w'.state.dma = { w.state.dma with dmaDataAvailable := false })
    (hcommitted : w'.state.pc = .invalidate → 0 < w.state.completed.length)
    (hholding : ∀ r, w'.state.pc.holding = some r →
      Held buff buffSize transferSize w'.iocs w'.cleaned r w.state.completed.length)
    (hsendto : ∀ r p, w'.state.pc = .sendto r p →
      Assigned buff buffSize transferSize w'.iocs w'.cleaned r p w.state.completed.length) :
    CacheInv buff buffSize transferSize w' := by
  obtain ⟨hpointers, -, hnotified, -, -, -⟩ := h
  rw [← hcompleted] at hpointers hnotified hcommitted hholding hsendto
  rcases hdma with hdma | hdma
  · rw [← hdma] at hpointers hnotified
    exact ⟨hpointers, hfilling, hnotified, hcommitted, hholding, hsendto⟩
  · refine ⟨?_, hfilling, ?_, hcommitted, hholding, hsendto⟩
    · rw [hdma]
      exact ⟨hpointers.gBuff, hpointers.gBuffSize, hpointers.gTransferSize, hpointers.axi, hpointers.eth⟩
    · rw [hdma]
      exact nofun

theorem CacheInv.exec (h : CacheInv buff buffSize transferSize w) {ok : Bool}
    (hs : Host.exec w.state ok = some s) :
    CacheInv buff buffSize transferSize (w.after iocMask (.exec ok) s) := by
  cases exec_statement hs with
  | skip hpc hmust => exact h.congr rfl h.filling (.inl rfl) nofun nofun nofun
  | enter hpc hmust =>
    rw [State.mustSend, Bool.and_eq_true] at hmust
    exact h.congr rfl h.filling (.inl rfl) (fun _ => h.notified hmust.2) nofun nofun
  | invalidate hpc =>
    -- the state before this statement is the one traced
    rw [Traced.after_invalidate hpc]
    refine h.congr rfl h.filling (.inl rfl) nofun (fun r hr => ?_) nofun
    cases hr
    exact ⟨h.pointers.eth, h.committed hpc, rfl, h.filling⟩
  | @alloc r hpc hok =>
    rw [Traced.after_exec (by rw [hpc]; exact nofun)]
    refine h.congr rfl h.filling (.inl rfl) nofun (fun r hr => h.holding r ?_) nofun
    rw [hpc]
    exact hr
  | noBuffer hpc hok => exact h.congr rfl h.filling (.inl rfl) nofun nofun nofun
  | @assign r hpc =>
    rw [Traced.after_exec (by rw [hpc]; exact nofun)]
    refine h.congr rfl h.filling (.inl rfl) nofun nofun (fun r p hp => ?_)
    cases hp
    exact ⟨h.holding r (by rw [hpc]; rfl), h.pointers.eth, Nat.le_refl _⟩
  | sendto hpc snd hsnd => exact h.congr rfl h.filling (.inl rfl) nofun nofun nofun
  | sent hpc => exact h.congr rfl h.filling (.inl rfl) nofun nofun nofun
  | free hpc => exact h.congr rfl h.filling (.inl rfl) nofun nofun nofun
  | clearData hpc => exact h.congr rfl h.filling (.inr rfl) nofun nofun nofun
  | clearNew hpc => exact h.congr rfl h.filling (.inl rfl) nofun nofun nofun

theorem CacheInv.irq (h : CacheInv buff buffSize transferSize w) {irqStatus : BitVec 32}
    (hs : Host.step iocMask w.state (.irq irqStatus) = some s) :
    CacheInv buff buffSize transferSize (w.after iocMask (.irq irqStatus) s) := by
  rcases step_irq hs with ⟨hioc, rfl⟩ | ⟨hioc, hlen, rfl⟩
  · have hkept : w.after iocMask (.irq irqStatus) w.state = w := by
      simp [Traced.after, hioc]
    rw [hkept]
    exact h
  · have hcount := w.state.length_completed_handOver
    refine ⟨?_, Nat.zero_le _, fun _ => ?_, fun _ => ?_, fun r hr => ?_, fun r p hp => ?_⟩
    · rw [Traced.after_state, hcount]
      exact h.pointers.handOver
    · rw [Traced.after_state, hcount]
      exact Nat.succ_pos _
    · rw [Traced.after_state, hcount]
      exact Nat.succ_pos _
    · have hr' : w.state.pc.holding = some r := hr
      have hiocs : (w.after iocMask (.irq irqStatus) w.state.handOver).iocs = w.iocs + 1 := by
        simpa [Traced.after, hr'] using hioc
      obtain ⟨hrange, hpos, hpacket, hfilling⟩ := h.holding r hr'
      refine ⟨hrange, hpos, ?_, hfilling⟩
      rw [hiocs, Traced.after_state, hcount, hpacket, Nat.add_assoc]
      rfl
    · have hp' : w.state.pc = .sendto r p := hp
      have hiocs : (w.after iocMask (.irq irqStatus) w.state.handOver).iocs = w.iocs := by
        simp [Traced.after, hp', Pc.holding]
      obtain ⟨hheld, hpayload, hle⟩ := h.sendto r p hp'
      refine ⟨?_, hpayload, ?_⟩
      · rw [hiocs]
        exact hheld
      · rw [Traced.after_state, hcount]
        exact Nat.le_succ_of_le hle

theorem CacheInv.step (h : CacheInv buff buffSize transferSize w) {e : Event}
    (hs : trace iocMask w e = some w') : CacheInv buff buffSize transferSize w' := by
  obtain ⟨s, hstep, rfl⟩ := Option.map_eq_some_iff.mp hs
  cases e with
  | exec ok => exact h.exec hstep
  | irq irqStatus => exact h.irq hstep
  | beat word =>
    obtain ⟨hlen, rfl⟩ := step_beat hstep
    refine h.congr rfl ?_ (.inl rfl) h.committed h.holding h.sendto
    rw [Traced.after_state, List.length_append, List.length_singleton]
    exact hlen
  | recv pcb p addr port =>
    obtain ⟨-, rfl⟩ := step_recv hstep
    exact h.congr rfl h.filling (.inl rfl) h.committed h.holding h.sendto
  | setTransferFlag =>
    obtain ⟨-, rfl⟩ := step_setTransferFlag hstep
    exact h.congr rfl h.filling (.inl rfl) h.committed h.holding h.sendto
  | transferData =>
    obtain ⟨-, rfl⟩ := step_transferData hstep
    exact h.congr rfl h.filling (.inl rfl) nofun nofun nofun

theorem CacheInv.run (h : CacheInv buff buffSize transferSize w) {es : List Event}
    (hrun : Lts.run (trace iocMask) w es = some w') : CacheInv buff buffSize transferSize w' :=
  Lts.run_induction (fun _ _ _ h hs => h.step hs) h hrun

/-! ### What the DMA has written -/

/-- The blocks written since the range was invalidated are those of the words stored since then. -/
structure WrittenInv (buff buffSize transferSize : ℕ) (w : Traced) : Prop where
  armed : w.state.armed.addr =
    slot buff (stops buffSize transferSize) transferSize w.state.completed.length
  le : w.cleaned.stored ≤ w.state.stored
  mem : ∀ a, a ∈ w.written ↔ ∃ i, w.cleaned.stored ≤ i ∧ i < w.state.stored ∧
    slot buff (stops buffSize transferSize) transferSize (i / beats) = a

theorem writtenInv_tracedStart (buff buffSize transferSize : ℕ) (mem : ℕ → BitVec 32) :
    WrittenInv buff buffSize transferSize (tracedStart buff buffSize transferSize mem) where
  armed := slot_zero.symm
  le := Nat.le_refl _
  mem a := by
    refine ⟨fun ha => absurd ha List.not_mem_nil, ?_⟩
    rintro ⟨i, -, hlt, -⟩
    exact absurd hlt (Nat.not_lt_zero i)

theorem WrittenInv.congr (h : WrittenInv buff buffSize transferSize w)
    (harmed : w'.state.armed = w.state.armed) (hcompleted : w'.state.completed = w.state.completed)
    (hfilling : w'.state.filling = w.state.filling) (hcleaned : w'.cleaned = w.cleaned)
    (hwritten : w'.written = w.written) : WrittenInv buff buffSize transferSize w' := by
  have hstored : w'.state.stored = w.state.stored := by
    rw [State.stored, hcompleted, hfilling, State.stored]
  refine ⟨?_, ?_, ?_⟩
  · rw [harmed, hcompleted]
    exact h.armed
  · rw [hcleaned, hstored]
    exact h.le
  · rw [hwritten, hcleaned, hstored]
    exact h.mem

theorem WrittenInv.beat (h : WrittenInv buff buffSize transferSize w) {word : BitVec 32}
    (hs : Host.step iocMask w.state (.beat word) = some s) :
    WrittenInv buff buffSize transferSize (w.after iocMask (.beat word) s) := by
  obtain ⟨hlen, rfl⟩ := step_beat hs
  have hblock : w.state.stored / beats = w.state.completed.length := by
    rw [State.stored, Nat.mul_add_div (by decide), Nat.div_eq_of_lt hlen, Nat.add_zero]
  have hstored : (w.after iocMask (.beat word) { w.state with
      mem := Function.update w.state.mem (w.state.armed.addr + 4 * w.state.filling.length) word
      filling := w.state.filling ++ [word] }).state.stored = w.state.stored + 1 := by
    rw [Traced.after_state, State.stored, List.length_append, List.length_singleton, ← Nat.add_assoc]
    rfl
  refine ⟨h.armed, ?_, fun a => ?_⟩
  · rw [hstored]
    exact Nat.le_succ_of_le h.le
  · rw [hstored]
    refine List.mem_cons.trans ?_
    rw [h.mem, h.armed, ← hblock]
    refine ⟨?_, ?_⟩
    · rintro (rfl | ⟨i, hle, hlt, rfl⟩)
      · exact ⟨_, h.le, Nat.lt_succ_self _, rfl⟩
      · exact ⟨i, hle, Nat.lt_succ_of_lt hlt, rfl⟩
    · rintro ⟨i, hle, hlt, rfl⟩
      rcases Nat.lt_succ_iff_lt_or_eq.mp hlt with hold | rfl
      · exact .inr ⟨i, hle, hold, rfl⟩
      · exact .inl rfl

theorem WrittenInv.irq (hcache : CacheInv buff buffSize transferSize w)
    (h : WrittenInv buff buffSize transferSize w) {irqStatus : BitVec 32}
    (hs : Host.step iocMask w.state (.irq irqStatus) = some s) :
    WrittenInv buff buffSize transferSize (w.after iocMask (.irq irqStatus) s) := by
  rcases step_irq hs with ⟨-, rfl⟩ | ⟨-, hlen, rfl⟩
  · exact h.congr rfl rfl rfl rfl rfl
  · have hstored : w.state.handOver.stored = w.state.stored := by
      rw [State.stored, State.length_completed_handOver, State.stored, hlen, Nat.mul_succ]
      rfl
    refine ⟨?_, ?_, ?_⟩
    · rw [Traced.after_state, State.length_completed_handOver]
      exact hcache.pointers.handOver.axi
    · rw [Traced.after_state, hstored]
      exact h.le
    · rw [Traced.after_state, hstored]
      exact h.mem

theorem WrittenInv.step (hcache : CacheInv buff buffSize transferSize w)
    (h : WrittenInv buff buffSize transferSize w) {e : Event} (hs : trace iocMask w e = some w') :
    WrittenInv buff buffSize transferSize w' := by
  obtain ⟨s, hstep, rfl⟩ := Option.map_eq_some_iff.mp hs
  cases e with
  | beat word => exact h.beat hstep
  | irq irqStatus => exact h.irq hcache hstep
  | exec ok =>
    obtain ⟨-, harmed, hfilling, hcompleted, -⟩ := step_ring hstep nofun nofun
    by_cases hpc : w.state.pc = .invalidate
    · have hstored : s.stored = w.state.stored := by
        rw [State.stored, hcompleted, hfilling, State.stored]
      rw [Traced.after_invalidate hpc]
      refine ⟨?_, Nat.le_of_eq hstored.symm, fun a => ⟨fun ha => absurd ha List.not_mem_nil, ?_⟩⟩
      · rw [harmed, hcompleted]
        exact h.armed
      · rintro ⟨i, hle, hlt, -⟩
        exact absurd (hstored ▸ hlt) (Nat.not_lt_of_le hle)
    · rw [Traced.after_exec hpc]
      exact h.congr harmed hcompleted hfilling rfl rfl
  | _ =>
    obtain ⟨-, harmed, hfilling, hcompleted, -⟩ := step_ring hstep nofun nofun
    exact h.congr harmed hcompleted hfilling rfl rfl

/-! ### What is sent -/

/-- Properties of the two reads that agree for what a call holds agree at each call of `udp_sendto`. -/
theorem CacheInv.atSend_iff (h : CacheInv buff buffSize transferSize w) {P Q : Traced → ℕ → PbufRef → Prop}
    (hPQ : ∀ k m p, w.iocs = m → w.cleaned.completed.length = k + 1 → w.cleaned.filling.length ≤ beats →
      p.packet = k + 1 + m → p.packet ≤ w.state.completed.length →
      p.payload = slot buff (stops buffSize transferSize) transferSize (k + m) →
      (P w (slot buff (stops buffSize transferSize) transferSize k) p ↔
        Q w (slot buff (stops buffSize transferSize) transferSize k) p)) (e : Event) :
    AtSend P w e ↔ AtSend Q w e := by
  cases e with
  | exec ok =>
    cases hpc : w.state.pc with
    | sendto r p =>
      obtain ⟨⟨hrange, hpos, hpacket, hfilling⟩, hpayload, hle⟩ := h.sendto r p hpc
      obtain ⟨k, hk⟩ : ∃ k, w.cleaned.completed.length = k + 1 := Nat.exists_eq_add_of_le' hpos
      rw [hk] at hpacket
      have hiff := hPQ k w.iocs p rfl hk hfilling hpacket hle (hpayload _ (by omega))
      rw [← hrange k hk] at hiff
      simpa only [AtSend, hpc] using hiff
    | _ => simp only [AtSend, hpc]
  | _ => exact Iff.rfl

/-- With no lap since block `k` was invalidated, `f` words into the packet after it, the packets completed by
then come to whole laps only if there are none, or if the ring is of one block. -/
theorem dvd_iff_of_not_lapped {n k m f stored : ℕ} (hn : 0 < n) (hf : f ≤ beats)
    (hle : beats * (k + 1 + m) ≤ stored) (hlap : stored ≤ max (beats * (k + 1) + f) (beats * (k + n))) :
    n ∣ m ↔ m = 0 ∨ (n = 1 ∧ m = 1 ∧ f = beats) := by
  refine ⟨?_, ?_⟩
  · intro hdvd
    rcases Nat.eq_zero_or_pos m with rfl | hm
    · exact .inl rfl
    · have hnm := Nat.le_of_dvd hm hdvd
      simp only [beats] at hf hle hlap ⊢
      omega
  · rintro (rfl | ⟨rfl, -, -⟩)
    · exact dvd_zero n
    · exact one_dvd m

/-- **Cache maintenance.** In every interleaving and for every ring: the range invalidated is the range
sent exactly when the IOC interrupts between the two reads of `dma_ptr_eth` lead around the ring; and the
DMA has written the block before it was invalidated and not since exactly when, the exception of a ring
of one block apart, there are none and the DMA is not back at the block. `Clean` compares the addresses of
blocks, so the second half is about bytes where blocks do not overlap, with 1024 bytes or more each. -/
theorem invalidated_is_sent_iff (iocMask : BitVec 32) (buff buffSize transferSize : ℕ)
    (mem : ℕ → BitVec 32) (es : List Event) :
    (Lts.Along (trace iocMask) (AtSend SameRange) (tracedStart buff buffSize transferSize mem) es ↔
        Lts.Along (trace iocMask) (AtSend (WholeLaps buffSize transferSize))
          (tracedStart buff buffSize transferSize mem) es) ∧
      (Lts.Along (trace iocMask) (AtSend Clean) (tracedStart buff buffSize transferSize mem) es ↔
        Lts.Along (trace iocMask)
          (AtSend fun w r p => NoHandOver buffSize transferSize w r p ∧ NotLapped buffSize transferSize w r p)
          (tracedStart buff buffSize transferSize mem) es) := by
  have hinit : CacheInv buff buffSize transferSize (tracedStart buff buffSize transferSize mem) ∧
      WrittenInv buff buffSize transferSize (tracedStart buff buffSize transferSize mem) :=
    ⟨cacheInv_tracedStart buff buffSize transferSize mem,
      writtenInv_tracedStart buff buffSize transferSize mem⟩
  have hstep : ∀ w e w', CacheInv buff buffSize transferSize w ∧ WrittenInv buff buffSize transferSize w →
      trace iocMask w e = some w' →
      CacheInv buff buffSize transferSize w' ∧ WrittenInv buff buffSize transferSize w' :=
    fun w e w' h hs => ⟨h.1.step hs, h.2.step h.1 hs⟩
  have hsame : ∀ k m, slot buff (stops buffSize transferSize) transferSize k =
      slot buff (stops buffSize transferSize) transferSize (k + m) ↔ stops buffSize transferSize ∣ m := by
    intro k m
    rw [← slot_stops_add_eq_iff buff buffSize transferSize k m]
    exact eq_comm
  refine ⟨?_, ?_⟩
  · refine Lts.along_iff_of_invariant hstep (fun w e h => h.1.atSend_iff ?_ e) hinit es
    intro k m p hm _ _ _ _ hpayload
    rw [SameRange, WholeLaps, hpayload, hsame, hm]
  · refine Lts.along_iff_of_invariant hstep (fun w e h => h.1.atSend_iff ?_ e) hinit es
    rintro k m p rfl hcompleted hfilling hpacket hle hpayload
    have hcleaned : w.cleaned.stored = beats * (k + 1) + w.cleaned.filling.length := by
      rw [State.stored, hcompleted]
    have hstored : beats * (k + 1 + w.iocs) ≤ w.state.stored :=
      (Nat.mul_le_mul_left beats (hpacket ▸ hle)).trans (Nat.le_add_right _ _)
    have hlap : ∀ r, NotLapped buffSize transferSize w r p ↔ w.state.stored ≤
        max (beats * (k + 1) + w.cleaned.filling.length) (beats * (k + stops buffSize transferSize)) := by
      intro r
      rw [NotLapped, hcleaned, hcompleted, Nat.add_sub_cancel]
    -- the DMA comes back to block `k` with the first word of the next lap
    have hwritten : slot buff (stops buffSize transferSize) transferSize k ∉ w.written ↔
        w.state.stored ≤
          max (beats * (k + 1) + w.cleaned.filling.length) (beats * (k + stops buffSize transferSize)) := by
      rw [h.2.mem, hcleaned, ← Nat.not_lt]
      exact not_congr (exists_slot_eq_iff buff buffSize transferSize w.state.stored (by decide)
        (Nat.le_add_right _ _) (Nat.add_le_add_left hfilling _))
    beta_reduce
    rw [Clean, NoHandOver, hpayload, hsame, hlap]
    refine ⟨?_, ?_⟩
    · rintro ⟨hdvd, hclean⟩
      rw [← (hsame k w.iocs).mpr hdvd, hwritten] at hclean
      exact ⟨(dvd_iff_of_not_lapped (stops_pos _ _) hfilling hstored hclean).mp hdvd, hclean⟩
    · rintro ⟨hnone, hclean⟩
      have hdvd := (dvd_iff_of_not_lapped (stops_pos _ _) hfilling hstored hclean).mpr hnone
      rw [← (hsame k w.iocs).mpr hdvd]
      exact ⟨hdvd, hwritten.mpr hclean⟩

/-! ### A range that was not invalidated -/

/-- `w` while the DMA stores the beats of `s` in the block it is armed with. -/
def Traced.fill (w : Traced) (s : State) : Traced :=
  ⟨s, w.cleaned, w.iocs, List.replicate s.filling.length s.armed.addr ++ w.written⟩

theorem trace_fill_beat (iocMask : BitVec 32) (w : Traced) (s : State) (word : BitVec 32) :
    trace iocMask (w.fill s) (.beat word) = (step iocMask s (.beat word)).map w.fill := by
  unfold trace
  change (step iocMask s (.beat word)).map _ = _
  cases hs : step iocMask s (.beat word) with
  | none => rfl
  | some s' =>
    obtain ⟨-, rfl⟩ := step_beat hs
    simp [Traced.after, Traced.fill, List.replicate_succ]

theorem run_packetEvents_traced {packet : Packet} {irqStatus : BitVec 32} (hlen : packet.length = beats)
    (hioc : irqStatus &&& iocMask ≠ 0) (hfilling : w.state.filling = []) :
    ∃ mem written, Lts.run (trace iocMask) w (packetEvents packet irqStatus) =
      some ⟨{ w.state with mem := mem, filling := packet }.handOver, w.cleaned,
        if w.state.pc.holding.isSome then w.iocs + 1 else w.iocs, written⟩ := by
  have hioc' : (irqStatus &&& iocMask != 0) = true := bne_iff_ne.mpr hioc
  have hw : w.fill w.state = w := by simp [Traced.fill, hfilling]
  obtain ⟨mem, hmem⟩ := run_packetEvents_watched (trace iocMask) w.fill
    (fun mem => (w.fill { w.state with mem := mem, filling := packet }).after iocMask (.irq irqStatus)
      { w.state with mem := mem, filling := packet }.handOver) hlen hfilling (trace_fill_beat iocMask w)
    (fun mem => Option.map_eq_some_iff.mpr ⟨_, step_irq_of_complete hioc hlen, rfl⟩)
  rw [hw] at hmem
  refine ⟨mem, List.replicate packet.length w.state.armed.addr ++ w.written, hmem.trans ?_⟩
  simp only [Traced.after, Traced.fill, hioc', Bool.and_true]

/-- A packet of silence, a START, and a call up to `pbuf_alloc`, which the IOC interrupt of the second
packet comes before. -/
def handedOver : List Event :=
  packetEvents (List.replicate beats 0) 0x1000 ++
    ([.recv 1 (some ⟨[0x00], fun _ => 0⟩) 0xc0a80102 5000, .transferData, .exec true, .exec true] ++
      (packetEvents (List.replicate beats 0) 0x1000 ++ [.exec true, .exec true]))

theorem run_handedOver : ∃ w p, Lts.run (trace 0x1000) (tracedStart 0 16384 1024 fun _ => 0) handedOver =
    some w ∧ w.state.pc = .sendto 0 p ∧ p.packet = 2 := by
  have hpacket : ∀ w : Traced, w.state.filling = [] →
      ∃ mem written, Lts.run (trace 0x1000) w (packetEvents (List.replicate beats 0) 0x1000) =
        some ⟨{ w.state with mem := mem, filling := List.replicate beats 0 }.handOver, w.cleaned,
          if w.state.pc.holding.isSome then w.iocs + 1 else w.iocs, written⟩ :=
    fun w => run_packetEvents_traced List.length_replicate (by decide)
  obtain ⟨mem₁, written₁, h₁⟩ := hpacket (tracedStart 0 16384 1024 fun _ => 0) rfl
  set s₁ : State := { State.handOver { startRing 0 16384 1024 (fun _ => 0) with
    mem := mem₁, filling := List.replicate beats 0 } with session := ⟨1, 0xc0a80102, 5000, true⟩ }
  obtain ⟨mem₂, written₂, h₂⟩ :=
    hpacket ⟨{ s₁ with pc := .alloc 0 }, { s₁ with pc := .invalidate }, 0, []⟩ rfl
  exact ⟨_, _, Lts.run_append.mpr ⟨_, h₁, Lts.run_append.mpr ⟨_, rfl, Lts.run_append.mpr ⟨_, h₂, rfl⟩⟩⟩,
    rfl, rfl⟩

/-- The second block is sent after the first one was invalidated. -/
theorem invalidated_is_not_sent :
    ¬ ∀ (iocMask : BitVec 32) (buff buffSize transferSize : ℕ) (mem : ℕ → BitVec 32) (es : List Event),
      Lts.Along (trace iocMask) (AtSend SameRange) (tracedStart buff buffSize transferSize mem) es := by
  intro hclaim
  obtain ⟨w, p, hrun, hpc, hpacket⟩ := run_handedOver
  have hinv := (cacheInv_tracedStart 0 16384 1024 fun _ => 0).run hrun
  have hpayload : p.payload = 1024 := (hinv.sendto 0 p hpc).2 1 hpacket
  have hsend := (hclaim 0x1000 0 16384 1024 (fun _ => 0) (handedOver ++ [.exec true])).of_run hrun
  simp only [AtSend, hpc, SameRange, hpayload] at hsend
  cases hsend

end FpgaLabor.Host
