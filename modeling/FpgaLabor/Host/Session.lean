import FpgaLabor.Host.Application

/-!
# Who receives the stream

What the datagrams received so far ask for (`latest`), and the session variables that `recv_callback`
keeps. The callback reads its command byte without looking at the length of the payload, so an empty
datagram acts as whatever the packet buffer happens to hold; as long as what it holds makes no
difference, the session follows the latest command (`Follows`) and the stream goes where that came from.
-/

namespace FpgaLabor.Host

/-- What a client can ask for. -/
inductive Command
  | start (pcb : ℕ) (ip : BitVec 32) (port : BitVec 16)
  | stop
  deriving DecidableEq

/-- The command of a datagram: the first byte of a payload that has one. -/
def commandOf : Event → Option Command
  | .recv pcb (some p) addr port =>
    match p.payload with
    | [] => none
    | byte :: _ => if byte = 0x00#8 then some (.start pcb addr port)
        else if byte = 0x01#8 then some .stop else none
  | _ => none

/-- The latest command received. -/
def latest (es : List Event) : Option Command := (es.filterMap commandOf).getLast?

theorem latest_concat (es : List Event) (e : Event) :
    latest (es ++ [e]) = (commandOf e).or (latest es) := by
  rw [latest, List.filterMap_append]
  cases h : commandOf e with
  | none => simp [h, latest]
  | some c => simp [h]

/-- The session a command asks for; without one, and after a stop, it is only to be silent. -/
def Follows (v : Session) : Option Command → Prop
  | some (.start pcb ip port) => v = ⟨pcb, ip, port, true⟩
  | _ => v.audioTransferEnabled = false

/-- What lies beyond an empty datagram makes no difference: it is no command byte, or a START to the
peer that is streamed to already, or a STOP while nothing is streamed. -/
def Harmless (s : State) : Event → Prop
  | .recv pcb (some p) addr port => p.payload = [] →
    (p.beyond 0 = 0x00#8 → s.session = ⟨pcb, addr, port, true⟩) ∧
    (p.beyond 0 = 0x01#8 → s.session.audioTransferEnabled = false)
  | _ => True

/-- Datagrams without a command, and everything else that happens, leave the session alone. -/
def Inert (iocMask : BitVec 32) (s : State) (e : Event) : Prop :=
  commandOf e = none → ∀ s', step iocMask s e = some s' → s'.session = s.session

variable {iocMask : BitVec 32} {s s' : State}

theorem follows_recvCallback {v : Session} {pcb : ℕ} {p : Pbuf} {addr : BitVec 32} {port : BitVec 16}
    {c : Command} (hc : commandOf (.recv pcb (some p) addr port) = some c) :
    Follows (recvCallback v pcb (some p) addr port) (some c) := by
  obtain ⟨payload, beyond⟩ := p
  cases payload with
  | nil => cases hc
  | cons byte rest =>
    simp only [commandOf] at hc
    simp only [recvCallback, Pbuf.byteAt, List.getD_cons_zero]
    split at hc
    · rename_i hstart
      cases hc
      rw [if_pos hstart]
      rfl
    · rename_i hstart
      rw [if_neg hstart]
      split at hc
      · rename_i hstop
        cases hc
        rw [if_pos hstop]
        rfl
      · cases hc

theorem recvCallback_eq_self {v : Session} {pcb : ℕ} {p : Pbuf} {addr : BitVec 32} {port : BitVec 16}
    (hc : commandOf (.recv pcb (some p) addr port) = none) :
    recvCallback v pcb (some p) addr port = v ↔
      (p.payload = [] → (p.beyond 0 = 0x00#8 → v = ⟨pcb, addr, port, true⟩) ∧
        (p.beyond 0 = 0x01#8 → v.audioTransferEnabled = false)) := by
  obtain ⟨payload, beyond⟩ := p
  cases payload with
  | cons byte rest =>
    simp only [commandOf] at hc
    simp only [recvCallback, Pbuf.byteAt, List.getD_cons_zero]
    split at hc
    · cases hc
    · rename_i hstart
      split at hc
      · cases hc
      · rename_i hstop
        rw [if_neg hstart, if_neg hstop]
        exact ⟨fun _ h => absurd h (List.cons_ne_nil _ _), fun _ => rfl⟩
  | nil =>
    simp only [recvCallback, Pbuf.byteAt, List.getD_nil, List.length_nil, Nat.sub_self, forall_const]
    by_cases hstart : beyond 0 = 0x00#8
    · rw [if_pos hstart]
      refine ⟨?_, ?_⟩
      · intro h
        exact ⟨fun _ => h.symm, fun hstop => absurd (hstart.symm.trans hstop) (by decide)⟩
      · intro h
        exact (h.1 hstart).symm
    · rw [if_neg hstart]
      by_cases hstop : beyond 0 = 0x01#8
      · rw [if_pos hstop]
        refine ⟨?_, ?_⟩
        · intro h
          exact ⟨fun hs => absurd hs hstart, fun _ => by rw [← h]⟩
        · intro h
          rw [← h.2 hstop]
      · rw [if_neg hstop]
        exact ⟨fun _ => ⟨fun hs => absurd hs hstart, fun hs => absurd hs hstop⟩, fun _ => rfl⟩

/-- An event without a command is inert exactly when what lies beyond it is harmless. -/
theorem inert_iff_harmless {e : Event} (h : step iocMask s e = some s') :
    Inert iocMask s e ↔ Harmless s e := by
  cases e with
  | recv pcb p addr port =>
    have hinert : ∀ s'', step iocMask s (.recv pcb p addr port) = some s'' →
        (s''.session = s.session ↔ recvCallback s.session pcb p addr port = s.session) := by
      intro s'' hs''
      rw [(step_recv hs'').2]
    cases p with
    | none => exact ⟨fun _ => trivial, fun _ _ s'' hs'' => (hinert s'' hs'').mpr rfl⟩
    | some p =>
      cases hc : commandOf (.recv pcb (some p) addr port) with
      | none =>
        rw [Harmless, ← recvCallback_eq_self hc]
        exact ⟨fun hi => (hinert s' h).mp (hi hc s' h), fun heq _ s'' hs'' => (hinert s'' hs'').mpr heq⟩
      | some c =>
        refine ⟨fun _ hnil => ?_, fun _ hnone => ?_⟩
        · rw [commandOf, hnil] at hc
          cases hc
        · rw [hc] at hnone
          cases hnone
  | _ => exact ⟨fun _ => trivial, fun _ _ s'' hs'' => step_session hs'' nofun⟩

/-! ### The session follows the commands -/

/-- A call of `transfer_data` that is going to send. -/
def Pc.bound : Pc → Bool
  | .invalidate | .alloc _ | .assign _ | .sendto _ _ => true
  | _ => false

/-- The session follows the latest of the events so far, and streams while a call is going to send. -/
structure Obeys (es : List Event) (s : State) : Prop where
  follows : Follows s.session (latest es)
  bound : s.pc.bound = true → s.session.audioTransferEnabled = true

theorem Obeys.follows_step {es : List Event} (h : Obeys es s) {e : Event}
    (hinert : Inert iocMask s e) (hs : step iocMask s e = some s') :
    Follows s'.session (latest (es ++ [e])) := by
  rw [latest_concat]
  cases hc : commandOf e with
  | none =>
    rw [hinert hc s' hs]
    exact h.follows
  | some c =>
    match e with
    | .recv pcb (some p) addr port =>
      obtain ⟨-, rfl⟩ := step_recv hs
      exact follows_recvCallback hc

theorem Obeys.bound_exec {es : List Event} (h : Obeys es s) {ok : Bool}
    (hs : Host.step iocMask s (.exec ok) = some s') (hbound : s'.pc.bound = true) :
    s'.session.audioTransferEnabled = true := by
  rw [step_session hs nofun]
  cases exec_statement hs with
  | enter hpc hmust =>
    rw [State.mustSend, Bool.and_eq_true, Bool.and_eq_true] at hmust
    exact hmust.1.1
  | invalidate hpc => exact h.bound (by rw [hpc]; rfl)
  | alloc hpc hok => exact h.bound (by rw [hpc]; rfl)
  | assign hpc => exact h.bound (by rw [hpc]; rfl)
  | _ => cases hbound

theorem Obeys.step {es : List Event} (h : Obeys es s) {e : Event} (hinert : Inert iocMask s e)
    (hs : Host.step iocMask s e = some s') : Obeys (es ++ [e]) s' := by
  refine ⟨h.follows_step hinert hs, fun hbound => ?_⟩
  cases e with
  | exec ok => exact h.bound_exec hs hbound
  | beat word =>
    obtain ⟨-, rfl⟩ := step_beat hs
    exact h.bound hbound
  | irq irqStatus =>
    rcases step_irq hs with ⟨-, rfl⟩ | ⟨-, -, rfl⟩
    · exact h.bound hbound
    · exact h.bound hbound
  | recv pcb p addr port =>
    -- the main loop receives only between two calls
    obtain ⟨hpc, rfl⟩ := step_recv hs
    simp only [hpc, Pc.bound] at hbound
    cases hbound
  | setTransferFlag =>
    obtain ⟨-, rfl⟩ := step_setTransferFlag hs
    exact h.bound hbound
  | transferData =>
    obtain ⟨-, rfl⟩ := step_transferData hs
    cases hbound

theorem sends_of_step {e : Event} (hs : step iocMask s e = some s') {snd : Send}
    (hsnd : s'.sends = s.sends ++ [snd]) : s.pc.bound = true ∧ snd.pcb = s.session.activePcb ∧
      snd.ip = s.session.remoteIp ∧ snd.port = s.session.remotePort := by
  have hne : s'.sends ≠ s.sends := by
    rw [hsnd]
    exact fun h => List.cons_ne_nil _ _ (List.append_right_eq_self.mp h)
  cases e with
  | exec ok =>
    cases exec_statement hs with
    | sendto hpc snd' hsnd' =>
      subst hsnd'
      rw [List.append_cancel_left_eq, List.singleton_inj] at hsnd
      subst hsnd
      exact ⟨by rw [hpc]; rfl, rfl, rfl, rfl⟩
    | _ => exact absurd rfl hne
  | beat word => exact absurd (by rw [(step_beat hs).2]) hne
  | irq irqStatus =>
    rcases step_irq hs with ⟨-, rfl⟩ | ⟨-, -, rfl⟩
    · exact absurd rfl hne
    · exact absurd rfl hne
  | recv pcb p addr port => exact absurd (by rw [(step_recv hs).2]) hne
  | setTransferFlag => exact absurd (by rw [(step_setTransferFlag hs).2]) hne
  | transferData => exact absurd (by rw [(step_transferData hs).2]) hne

theorem Follows.start_of_enabled {v : Session} {c : Option Command} (h : Follows v c)
    (hen : v.audioTransferEnabled = true) : c = some (.start v.activePcb v.remoteIp v.remotePort) := by
  match c with
  | some (.start pcb ip port) =>
    rw [show v = ⟨pcb, ip, port, true⟩ from h]
  | some .stop =>
    rw [show v.audioTransferEnabled = false from h] at hen
    cases hen
  | none =>
    rw [show v.audioTransferEnabled = false from h] at hen
    cases hen

/-- Every send of a run goes to the peer whose START is the latest command then. -/
def SendsToLatest (iocMask : BitVec 32) (s₀ : State) (es : List Event) : Prop :=
  ∀ pre e post s s' snd, es = pre ++ e :: post → Lts.run (step iocMask) s₀ pre = some s →
    step iocMask s e = some s' → s'.sends = s.sends ++ [snd] →
      latest pre = some (.start snd.pcb snd.ip snd.port)

/-- **Session safety.** In every run from the start: all sends go to the peer whose START is the latest
command, and nothing but a command changes the session, exactly when every empty datagram finds a
harmless byte beyond it. -/
theorem session_safe_iff (iocMask : BitVec 32) (buff buffSize : ℕ) (mem : ℕ → BitVec 32)
    (es : List Event) (s : State) (hrun : Lts.run (step iocMask) (start buff buffSize mem) es = some s) :
    (SendsToLatest iocMask (start buff buffSize mem) es ∧
        Lts.Along (step iocMask) (Inert iocMask) (start buff buffSize mem) es) ↔
      Lts.Along (step iocMask) Harmless (start buff buffSize mem) es := by
  have hinert : Lts.Along (step iocMask) (Inert iocMask) (start buff buffSize mem) es ↔
      Lts.Along (step iocMask) Harmless (start buff buffSize mem) es :=
    Lts.along_congr (fun _ _ _ => inert_iff_harmless) hrun
  rw [← hinert, and_iff_right_iff_imp]
  intro halong pre e post t t' snd hes hpre hstep hsnd
  rw [hes] at halong
  have hobeys : Obeys pre t := by
    refine halong.of_append.history_induction (I := Obeys) (fun pre u e u' h hi hs => h.step hi hs) ?_ hpre
    exact ⟨rfl, nofun⟩
  obtain ⟨hbound, hpcb, hip, hport⟩ := sends_of_step hstep hsnd
  rw [hpcb, hip, hport]
  exact hobeys.follows.start_of_enabled (hobeys.bound hbound)

/-- A packet sent to the peer that sent START, and an empty datagram from elsewhere over a byte that is no
command. -/
def sendAndEmpty : List Event :=
  sendAfter [countingPacket 0] ++ [.exec true, .exec true, .exec true, .exec true,
    .recv 1 (some ⟨[], fun _ => 0x37⟩) 0xc0a80103 6000]

theorem session_safe_sendAndEmpty : ∃ s snd,
    Lts.run (step 0x1000) (start 0 16384 (BitVec.ofNat 32)) sendAndEmpty = some s ∧ s.sends = [snd] ∧
      snd.ip = 0xc0a80102 ∧ SendsToLatest 0x1000 (start 0 16384 (BitVec.ofNat 32)) sendAndEmpty := by
  obtain ⟨s, snd, hrun, hpc, hsends, hip, -⟩ := run_sendAfter [countingPacket 0] (List.cons_ne_nil _ _)
    (by simp [length_countingPacket]) 0 16384 (BitVec.ofNat 32)
  obtain ⟨dma, session, newData, pc, mem, armed, filling, completed, sends⟩ := s
  subst hpc
  obtain ⟨s', hrun', hsends'⟩ : ∃ s', Lts.run (step 0x1000) (start 0 16384 (BitVec.ofNat 32)) sendAndEmpty =
      some s' ∧ s'.sends = [snd] := ⟨_, Lts.run_append.mpr ⟨_, hrun, rfl⟩, hsends⟩
  refine ⟨s', snd, hrun', hsends', hip, ?_⟩
  refine ((session_safe_iff 0x1000 0 16384 (BitVec.ofNat 32) sendAndEmpty s' hrun').2 ?_).1
  refine Lts.along_of_forall (fun e he s => ?_) _
  simp only [sendAndEmpty, sendAfter, packetEvents, List.flatMap_cons, List.flatMap_nil, List.append_nil,
    List.mem_append, List.mem_map, List.mem_cons, List.not_mem_nil, or_false] at he
  rcases he with ((⟨word, -, rfl⟩ | rfl) | rfl | rfl | rfl | rfl | rfl | rfl | rfl) | rfl | rfl | rfl | rfl | rfl
  all_goals simp [Harmless]

/-- An empty datagram over a zero byte starts the stream. -/
theorem session_unsafe_empty_datagram :
    ¬ ∀ (iocMask : BitVec 32) (buff buffSize : ℕ) (mem : ℕ → BitVec 32) (es : List Event) (s : State),
      Lts.run (step iocMask) (start buff buffSize mem) es = some s →
        SendsToLatest iocMask (start buff buffSize mem) es ∧
          Lts.Along (step iocMask) (Inert iocMask) (start buff buffSize mem) es := by
  intro hclaim
  obtain ⟨-, hinert, -⟩ := hclaim 0x1000 0 16384 (fun _ => 0)
    [.recv 1 (some ⟨[], fun _ => 0x00⟩) 0xc0a80102 5000] _ rfl
  have hsession := hinert rfl _ rfl
  cases hsession

end FpgaLabor.Host
