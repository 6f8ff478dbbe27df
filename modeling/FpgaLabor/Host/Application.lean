import FpgaLabor.Base.Lts
import FpgaLabor.Host.DmaController

/-!
# The Ethernet side, and the system of main loop, interrupts and DMA

`recv_callback` and the statements of `transfer_data` from `application.cpp`, run by the main loop of
`main.c` one after the other; `RxIntrHandler` may run between any two statements of `transfer_data`. The
DMA writes the beats of a packet one by one into the block it was armed with and raises IOC after the
last one. What lies outside the repository is in the events: the stream, the received datagrams, and
whether `pbuf_alloc` and `udp_sendto` succeed.
-/

namespace FpgaLabor.Host

/-! ### The session -/

/-- The session variables; a null `active_pcb` is `0`. -/
structure Session where
  activePcb : ℕ
  remoteIp : BitVec 32
  remotePort : BitVec 16
  audioTransferEnabled : Bool
  deriving DecidableEq

/-- A received datagram: its payload, and what the packet buffer holds beyond it. -/
structure Pbuf where
  payload : List (BitVec 8)
  beyond : ℕ → BitVec 8

/-- Byte `i` from `p->payload` on. -/
def Pbuf.byteAt (p : Pbuf) (i : ℕ) : BitVec 8 := p.payload.getD i (p.beyond (i - p.payload.length))

/-- `recv_callback`. -/
def recvCallback (v : Session) (pcb : ℕ) (p : Option Pbuf) (addr : BitVec 32) (port : BitVec 16) :
    Session :=
  match p with
  | none => v
  | some p =>
    let command := p.byteAt 0
    if command = 0x00#8 then ⟨pcb, addr, port, true⟩
    else if command = 0x01#8 then { v with audioTransferEnabled := false }
    else v

/-! ### The statements of `transfer_data` -/

/-- The pbuf of a call: `p->payload`, and the number of packets completed when it was assigned. -/
structure PbufRef where
  payload : ℕ
  packet : ℕ
  deriving DecidableEq

/-- A call of `udp_sendto`, and the address whose cache range its `transfer_data` has invalidated. -/
structure Send extends PbufRef where
  pcb : ℕ
  ip : BitVec 32
  port : BitVec 16
  invalidated : ℕ
  deriving DecidableEq

/-- The statement `transfer_data` executes next; `sending` is the time during `udp_sendto`. -/
inductive Pc
  | mainLoop
  | condition
  | invalidate
  | alloc (invalidated : ℕ)
  | assign (invalidated : ℕ)
  | sendto (invalidated : ℕ) (p : PbufRef)
  | sending (snd : Send)
  | free (p : PbufRef)
  | clearData (p : Option PbufRef)
  | clearNew
  deriving DecidableEq

/-- The words of a packet. -/
abbrev Packet := List (BitVec 32)

/-- The beats of a packet. -/
abbrev beats : ℕ := 256

/-- The state of both programs, the memory, and the DMA: the transfer it is armed with and the beats it
has stored so far. `completed` lists the packets whose IOC the handler has processed, `sends` the calls
of `udp_sendto`. -/
structure State where
  dma : DmaGlobals
  session : Session
  newDataAvailable : Bool
  pc : Pc
  mem : ℕ → BitVec 32
  armed : SimpleTransfer
  filling : Packet
  completed : List Packet
  sends : List Send

/-- `exec ok` is the next statement of `transfer_data`; `ok` is the result of `pbuf_alloc` and
`udp_sendto`. -/
inductive Event
  | beat (word : BitVec 32)
  | irq (irqStatus : BitVec 32)
  | recv (pcb : ℕ) (p : Option Pbuf) (addr : BitVec 32) (port : BitVec 16)
  | setTransferFlag
  | transferData
  | exec (ok : Bool)

/-- The `if` of `transfer_data`. -/
def State.mustSend (s : State) : Bool :=
  s.session.audioTransferEnabled && s.session.activePcb != 0 && s.dma.dmaDataAvailable

/-- The next statement of `transfer_data`. An error of `udp_sendto` is only printed. -/
def exec (s : State) (ok : Bool) : Option State :=
  match s.pc with
  | .mainLoop => none
  | .condition => some { s with pc := if s.mustSend then .invalidate else .mainLoop }
  | .invalidate => some { s with pc := .alloc s.dma.dmaPtrEth }
  | .alloc invalidated => some { s with pc := if ok then .assign invalidated else .clearData none }
  | .assign invalidated =>
    some { s with pc := .sendto invalidated ⟨s.dma.dmaPtrEth, s.completed.length⟩ }
  | .sendto invalidated p =>
    let snd : Send :=
      ⟨p, s.session.activePcb, s.session.remoteIp, s.session.remotePort, invalidated⟩
    some { s with pc := .sending snd, sends := s.sends ++ [snd] }
  | .sending snd => some { s with pc := .free snd.toPbufRef }
  | .free p => some { s with pc := .clearData (some p) }
  | .clearData _ => some { s with pc := .clearNew, dma := { s.dma with dmaDataAvailable := false } }
  | .clearNew => some { s with pc := .mainLoop, newDataAvailable := false }

/-- `RxIntrHandler` as one step. It finds IOC set once all beats of the packet are stored. -/
def interrupt (iocMask : BitVec 32) (s : State) (irqStatus : BitVec 32) : Option State :=
  match rxIntrHandler iocMask irqStatus s.dma with
  | (d, none) => some { s with dma := d }
  | (d, some transfer) =>
    if s.filling.length = beats then
      some { s with dma := d, armed := transfer, completed := s.completed ++ [s.filling], filling := [] }
    else none

/-- One step of the system. The main loop receives and calls `transfer_data` in turn. -/
def step (iocMask : BitVec 32) (s : State) : Event → Option State
  | .beat word =>
    if s.filling.length < beats then
      some { s with
        mem := Function.update s.mem (s.armed.addr + 4 * s.filling.length) word
        filling := s.filling ++ [word] }
    else none
  | .irq irqStatus => interrupt iocMask s irqStatus
  | .recv pcb p addr port =>
    if s.pc = .mainLoop then some { s with session := recvCallback s.session pcb p addr port } else none
  | .setTransferFlag => if s.pc = .mainLoop then some { s with newDataAvailable := true } else none
  | .transferData => if s.pc = .mainLoop then some { s with pc := .condition } else none
  | .exec ok => exec s ok

/-- The globals before `start_application`. -/
def zeroGlobals : DmaGlobals := ⟨0, 0, 0, 0, 0, false⟩

/-- The session before the first datagram. -/
def noSession : Session := ⟨0, 0, 0, false⟩

/-- The end of `start_application`, with a ring of `buffSize` bytes at `buff` and everything brought up:
the first transfer is armed. -/
def start (buff buffSize : ℕ) (mem : ℕ → BitVec 32) : State where
  dma := (dmaItInit ⟨true, true, true⟩ zeroGlobals buff buffSize 1024).1
  session := noSession
  newDataAvailable := false
  pc := .mainLoop
  mem := mem
  armed := ((dmaItInit ⟨true, true, true⟩ zeroGlobals buff buffSize 1024).2).getD ⟨0, 0⟩
  filling := []
  completed := []
  sends := []

/-- `start` with any transfer size. A packet is of 256 beats all the same, since the stream ends it; blocks of
less than 1024 bytes overlap, and a block is known by its address. -/
def startRing (buff buffSize transferSize : ℕ) (mem : ℕ → BitVec 32) : State :=
  { start buff buffSize mem with
    dma := (dmaItInit ⟨true, true, true⟩ zeroGlobals buff buffSize transferSize).1
    armed := ((dmaItInit ⟨true, true, true⟩ zeroGlobals buff buffSize transferSize).2).getD ⟨0, 0⟩ }

theorem startRing_eq_start (buff buffSize : ℕ) (mem : ℕ → BitVec 32) :
    startRing buff buffSize 1024 mem = start buff buffSize mem := rfl

/-! ### What a step can do -/

section Steps

variable {iocMask : BitVec 32} {s s' : State}

/-- The state after an IOC interrupt. -/
def State.handOver (s : State) : State :=
  { s with
    dma := s.dma.handOver
    armed := ⟨s.dma.handOver.dmaPtrAxi, s.dma.gTransferSize⟩
    completed := s.completed ++ [s.filling]
    filling := [] }

@[simp] theorem State.length_completed_handOver (s : State) :
    s.handOver.completed.length = s.completed.length + 1 := by
  simp [State.handOver]

theorem step_beat {word : BitVec 32} (h : step iocMask s (.beat word) = some s') :
    s.filling.length < beats ∧ s' = { s with
      mem := Function.update s.mem (s.armed.addr + 4 * s.filling.length) word
      filling := s.filling ++ [word] } := by
  obtain ⟨hlen, hs⟩ := Option.ite_none_right_eq_some.mp h
  exact ⟨hlen, (Option.some.inj hs).symm⟩

theorem step_irq {irqStatus : BitVec 32} (h : step iocMask s (.irq irqStatus) = some s') :
    (irqStatus &&& iocMask = 0 ∧ s' = s) ∨
      (irqStatus &&& iocMask ≠ 0 ∧ s.filling.length = beats ∧ s' = s.handOver) := by
  rw [step, interrupt] at h
  by_cases hioc : irqStatus &&& iocMask = 0
  · rw [rxIntrHandler_of_not_ioc hioc] at h
    cases h
    exact .inl ⟨hioc, rfl⟩
  · rw [rxIntrHandler_of_ioc hioc] at h
    obtain ⟨hlen, hs⟩ := Option.ite_none_right_eq_some.mp h
    exact .inr ⟨hioc, hlen, (Option.some.inj hs).symm⟩

theorem step_irq_of_complete {irqStatus : BitVec 32} (hioc : irqStatus &&& iocMask ≠ 0)
    (hlen : s.filling.length = beats) : step iocMask s (.irq irqStatus) = some s.handOver := by
  rw [step, interrupt, rxIntrHandler_of_ioc hioc]
  exact if_pos hlen

theorem step_recv {pcb : ℕ} {p : Option Pbuf} {addr : BitVec 32} {port : BitVec 16}
    (h : step iocMask s (.recv pcb p addr port) = some s') :
    s.pc = .mainLoop ∧ s' = { s with session := recvCallback s.session pcb p addr port } := by
  obtain ⟨hpc, hs⟩ := Option.ite_none_right_eq_some.mp h
  exact ⟨hpc, (Option.some.inj hs).symm⟩

theorem step_setTransferFlag (h : step iocMask s .setTransferFlag = some s') :
    s.pc = .mainLoop ∧ s' = { s with newDataAvailable := true } := by
  obtain ⟨hpc, hs⟩ := Option.ite_none_right_eq_some.mp h
  exact ⟨hpc, (Option.some.inj hs).symm⟩

theorem step_transferData (h : step iocMask s .transferData = some s') :
    s.pc = .mainLoop ∧ s' = { s with pc := .condition } := by
  obtain ⟨hpc, hs⟩ := Option.ite_none_right_eq_some.mp h
  exact ⟨hpc, (Option.some.inj hs).symm⟩

/-- What the next statement of `transfer_data` can do. -/
inductive Statement (s : State) (ok : Bool) : State → Prop
  | skip (hpc : s.pc = .condition) (hmust : s.mustSend = false) : Statement s ok { s with pc := .mainLoop }
  | enter (hpc : s.pc = .condition) (hmust : s.mustSend = true) :
    Statement s ok { s with pc := .invalidate }
  | invalidate (hpc : s.pc = .invalidate) : Statement s ok { s with pc := .alloc s.dma.dmaPtrEth }
  | alloc {r : ℕ} (hpc : s.pc = .alloc r) (hok : ok = true) : Statement s ok { s with pc := .assign r }
  | noBuffer {r : ℕ} (hpc : s.pc = .alloc r) (hok : ok = false) :
    Statement s ok { s with pc := .clearData none }
  | assign {r : ℕ} (hpc : s.pc = .assign r) :
    Statement s ok { s with pc := .sendto r ⟨s.dma.dmaPtrEth, s.completed.length⟩ }
  | sendto {r : ℕ} {p : PbufRef} (hpc : s.pc = .sendto r p) (snd : Send)
    (hsnd : snd = ⟨p, s.session.activePcb, s.session.remoteIp, s.session.remotePort, r⟩) :
    Statement s ok { s with pc := .sending snd, sends := s.sends ++ [snd] }
  | sent {snd : Send} (hpc : s.pc = .sending snd) : Statement s ok { s with pc := .free snd.toPbufRef }
  | free {p : PbufRef} (hpc : s.pc = .free p) : Statement s ok { s with pc := .clearData (some p) }
  | clearData {p : Option PbufRef} (hpc : s.pc = .clearData p) :
    Statement s ok { s with pc := .clearNew, dma := { s.dma with dmaDataAvailable := false } }
  | clearNew (hpc : s.pc = .clearNew) :
    Statement s ok { s with pc := .mainLoop, newDataAvailable := false }

theorem exec_statement {ok : Bool} (h : exec s ok = some s') : Statement s ok s' := by
  unfold exec at h
  split at h
  case h_1 => cases h
  case h_2 hpc =>
    cases hmust : s.mustSend <;> rw [hmust] at h <;> cases h
    · exact .skip hpc hmust
    · exact .enter hpc hmust
  case h_3 hpc => cases h; exact .invalidate hpc
  case h_4 r hpc =>
    cases hok : ok <;> rw [hok] at h <;> cases h
    · exact .noBuffer hpc rfl
    · exact .alloc hpc rfl
  case h_5 r hpc => cases h; exact .assign hpc
  case h_6 r p hpc => cases h; exact .sendto hpc _ rfl
  case h_7 snd hpc => cases h; exact .sent hpc
  case h_8 p hpc => cases h; exact .free hpc
  case h_9 p hpc => cases h; exact .clearData hpc
  case h_10 hpc => cases h; exact .clearNew hpc

/-- Only `recv_callback` changes the session. -/
theorem step_session {e : Event} (h : step iocMask s e = some s')
    (he : ∀ pcb p addr port, e ≠ .recv pcb p addr port) : s'.session = s.session := by
  cases e with
  | beat word => rw [(step_beat h).2]
  | irq irqStatus => rcases step_irq h with ⟨-, rfl⟩ | ⟨-, -, rfl⟩ <;> rfl
  | recv pcb p addr port => exact absurd rfl (he pcb p addr port)
  | setTransferFlag => rw [(step_setTransferFlag h).2]
  | transferData => rw [(step_transferData h).2]
  | exec ok => cases exec_statement h <;> rfl

/-- Only the DMA and its handler touch the ring; of the controller's globals, the main loop changes the
flag, which it can only clear. -/
theorem step_ring {e : Event} (h : step iocMask s e = some s') (hbeat : ∀ word, e ≠ .beat word)
    (hirq : ∀ irqStatus, e ≠ .irq irqStatus) :
    s'.mem = s.mem ∧ s'.armed = s.armed ∧ s'.filling = s.filling ∧ s'.completed = s.completed ∧
      (s'.dma = s.dma ∨ s'.dma = { s.dma with dmaDataAvailable := false }) := by
  cases e with
  | beat word => exact absurd rfl (hbeat word)
  | irq irqStatus => exact absurd rfl (hirq irqStatus)
  | recv pcb p addr port =>
    rw [(step_recv h).2]
    exact ⟨rfl, rfl, rfl, rfl, .inl rfl⟩
  | setTransferFlag =>
    rw [(step_setTransferFlag h).2]
    exact ⟨rfl, rfl, rfl, rfl, .inl rfl⟩
  | transferData =>
    rw [(step_transferData h).2]
    exact ⟨rfl, rfl, rfl, rfl, .inl rfl⟩
  | exec ok =>
    cases exec_statement h with
    | clearData => exact ⟨rfl, rfl, rfl, rfl, .inr rfl⟩
    | _ => exact ⟨rfl, rfl, rfl, rfl, .inl rfl⟩

theorem run_beats (iocMask : BitVec 32) (words : Packet) (s : State)
    (hlen : s.filling.length + words.length ≤ beats) :
    ∃ mem, Lts.run (step iocMask) s (words.map .beat) =
      some { s with mem := mem, filling := s.filling ++ words } := by
  induction words generalizing s with
  | nil => exact ⟨s.mem, by rw [List.append_nil]; rfl⟩
  | cons word words ih =>
    rw [List.length_cons] at hlen
    obtain ⟨mem, hmem⟩ := ih { s with
      mem := Function.update s.mem (s.armed.addr + 4 * s.filling.length) word
      filling := s.filling ++ [word] } (by simp only [List.length_append, List.length_singleton]; omega)
    refine ⟨mem, Lts.run_cons.mpr ⟨_, if_pos (by omega), ?_⟩⟩
    simp only [List.append_assoc, List.singleton_append] at hmem
    exact hmem

/-- The events of a packet: its beats and the interrupt. -/
def packetEvents (packet : Packet) (irqStatus : BitVec 32) : List Event :=
  packet.map .beat ++ [.irq irqStatus]

theorem run_packetEvents_watched {τ : Type*} (watch : τ → Event → Option τ) (f : State → τ)
    (t : (ℕ → BitVec 32) → τ) {packet : Packet} {irqStatus : BitVec 32} (hlen : packet.length = beats)
    (hfilling : s.filling = [])
    (hbeat : ∀ s word, watch (f s) (.beat word) = (step iocMask s (.beat word)).map f)
    (hirq : ∀ mem, watch (f { s with mem := mem, filling := packet }) (.irq irqStatus) = some (t mem)) :
    ∃ mem, Lts.run watch (f s) (packetEvents packet irqStatus) = some (t mem) := by
  obtain ⟨mem, hmem⟩ := run_beats iocMask packet s (by
    rw [hfilling, hlen, List.length_nil, Nat.zero_add])
  rw [hfilling, List.nil_append] at hmem
  refine ⟨mem, Lts.run_append.mpr ⟨_, Lts.run_map f ?_ hmem, Lts.run_cons.mpr ⟨_, hirq mem, rfl⟩⟩⟩
  intro s e he
  obtain ⟨word, -, rfl⟩ := List.mem_map.mp he
  exact hbeat s word

theorem run_packetEvents {packet : Packet} {irqStatus : BitVec 32} (hlen : packet.length = beats)
    (hioc : irqStatus &&& iocMask ≠ 0) (hfilling : s.filling = []) :
    ∃ mem, Lts.run (step iocMask) s (packetEvents packet irqStatus) =
      some { s with mem := mem, filling := packet }.handOver :=
  run_packetEvents_watched (step iocMask) id _ hlen hfilling (fun _ _ => Option.map_id_apply.symm)
    fun _ => step_irq_of_complete hioc hlen

theorem run_packets (packets : List Packet) (hlen : ∀ packet ∈ packets, packet.length = beats)
    {irqStatus : BitVec 32} (hioc : irqStatus &&& iocMask ≠ 0) (s : State) (hfilling : s.filling = [])
    (hflag : packets = [] → s.dma.dmaDataAvailable = true) :
    ∃ dma mem armed, dma.dmaDataAvailable = true ∧
      Lts.run (step iocMask) s (packets.flatMap (packetEvents · irqStatus)) =
        some { s with dma := dma, mem := mem, armed := armed, completed := s.completed ++ packets } := by
  induction packets generalizing s with
  | nil =>
    refine ⟨s.dma, s.mem, s.armed, hflag rfl, ?_⟩
    rw [List.append_nil]
    rfl
  | cons packet packets ih =>
    obtain ⟨mem, hmem⟩ := run_packetEvents (s := s) (hlen packet List.mem_cons_self) hioc hfilling
    obtain ⟨dma, mem', armed, hnotified, hrun⟩ :=
      ih (fun p hp => hlen p (List.mem_cons_of_mem _ hp)) (State.handOver { s with mem := mem, filling := packet })
        rfl fun _ => rfl
    refine ⟨dma, mem', armed, hnotified, ?_⟩
    rw [List.flatMap_cons]
    refine Lts.run_append.mpr ⟨_, hmem, hrun.trans ?_⟩
    simp only [State.handOver, List.append_assoc, List.singleton_append, hfilling]

/-- Packets, a START, and a call up to `udp_sendto`. -/
def sendAfter (packets : List Packet) : List Event :=
  packets.flatMap (packetEvents · 0x1000) ++ [.recv 1 (some ⟨[0x00], fun _ => 0⟩) 0xc0a80102 5000,
    .transferData, .exec true, .exec true, .exec true, .exec true, .exec true]

theorem run_sendAfter (packets : List Packet) (hne : packets ≠ [])
    (hlen : ∀ packet ∈ packets, packet.length = beats) (buff buffSize : ℕ) (mem : ℕ → BitVec 32) :
    ∃ s snd, Lts.run (step 0x1000) (start buff buffSize mem) (sendAfter packets) = some s ∧
      s.pc = .sending snd ∧ s.sends = [snd] ∧ snd.ip = 0xc0a80102 ∧ snd.packet = packets.length ∧
      s.completed = packets := by
  have hioc : (0x1000 : BitVec 32) &&& 0x1000 ≠ 0 := by decide
  obtain ⟨⟨_, _, _, _, _, _⟩, mem', armed, hnotified, hrun⟩ :=
    run_packets packets hlen hioc (start buff buffSize mem) rfl fun h => absurd h hne
  subst hnotified
  exact ⟨_, _, Lts.run_append.mpr ⟨_, hrun, rfl⟩, rfl, rfl, rfl, rfl, rfl⟩

/-- A packet whose words count on from those of the packets before it. -/
def countingPacket (k : ℕ) : Packet := (List.range beats).map fun i => BitVec.ofNat 32 (beats * k + i)

theorem length_countingPacket (k : ℕ) : (countingPacket k).length = beats := by
  rw [countingPacket, List.length_map, List.length_range]

end Steps

end FpgaLabor.Host
