import FpgaLabor.Host.HandOff
import FpgaLabor.System.Throughput

/-!
# From the samples to the datagrams

The core at one end of the stream, the DMA ring and the Ethernet side at the other. The DMA stores the words
that leave the core, in order and block by block; the blocks end where the packets of the stream do. A datagram
then carries 128 consecutive pairs of the core, from the second packet on filtered ones and three samples apart
(`audio_path`).
-/

namespace FpgaLabor

open Host (Event beats step start)

/-! ### The words stored -/

/-- The word that an event stores. -/
def storedWord : Event → List (BitVec 32)
  | .beat word => [word]
  | _ => []

/-- The words that the DMA stores in a run. -/
def storedWords (es : List Event) : List (BitVec 32) := es.flatMap storedWord

section Stored

variable {iocMask : BitVec 32} {buff buffSize : ℕ} {mem : ℕ → BitVec 32} {es : List Event} {s : Host.State}

theorem step_stored {s' : Host.State} {e : Event} (hs : step iocMask s e = some s') :
    s'.completed.flatten ++ s'.filling = s.completed.flatten ++ s.filling ++ storedWord e := by
  cases e with
  | beat word =>
    rw [(Host.step_beat hs).2]
    exact (List.append_assoc _ _ _).symm
  | irq irqStatus =>
    rcases Host.step_irq hs with ⟨-, rfl⟩ | ⟨-, -, rfl⟩
    · exact (List.append_nil _).symm
    · simp [Host.State.handOver, storedWord]
  | _ =>
    obtain ⟨-, -, hfilling, hcompleted, -⟩ := Host.step_ring hs (by simp) (by simp)
    rw [hfilling, hcompleted]
    exact (List.append_nil _).symm

theorem stored_run (hrun : Lts.run (step iocMask) (start buff buffSize mem) es = some s) :
    s.completed.flatten ++ s.filling = storedWords es :=
  Lts.log_run (fun s => s.completed.flatten ++ s.filling) storedWord (fun _ _ _ => step_stored) hrun

/-- The blocks have their full length, and the one being filled no more than that. -/
def BlocksSized (s : Host.State) : Prop :=
  (∀ packet ∈ s.completed, packet.length = beats) ∧ s.filling.length ≤ beats

theorem BlocksSized.step {s' : Host.State} {e : Event} (h : BlocksSized s) (hs : step iocMask s e = some s') :
    BlocksSized s' := by
  obtain ⟨hcompleted, hfilling⟩ := h
  cases e with
  | beat word =>
    obtain ⟨hlt, rfl⟩ := Host.step_beat hs
    refine ⟨hcompleted, ?_⟩
    rw [List.length_append]
    exact hlt
  | irq irqStatus =>
    rcases Host.step_irq hs with ⟨-, rfl⟩ | ⟨-, hfull, rfl⟩
    · exact ⟨hcompleted, hfilling⟩
    · refine ⟨?_, Nat.zero_le _⟩
      intro packet hpacket
      rcases List.mem_append.mp hpacket with hpacket | hpacket
      · exact hcompleted packet hpacket
      · rw [List.mem_singleton.mp hpacket]
        exact hfull
  | _ =>
    obtain ⟨-, -, hfilling', hcompleted', -⟩ := Host.step_ring hs (by simp) (by simp)
    rw [BlocksSized, hfilling', hcompleted']
    exact ⟨hcompleted, hfilling⟩

theorem blocksSized_run (hrun : Lts.run (step iocMask) (start buff buffSize mem) es = some s) : BlocksSized s :=
  Lts.run_induction (I := BlocksSized) (fun _ _ _ h hs => h.step hs) ⟨by simp [start], Nat.zero_le _⟩ hrun

theorem length_flatten_of_length {α : Type*} {n : ℕ} {L : List (List α)} (h : ∀ q ∈ L, q.length = n) :
    L.flatten.length = n * L.length := by
  induction L with
  | nil => rfl
  | cons q L ih =>
    rw [List.flatten_cons, List.length_append, h q List.mem_cons_self,
      ih fun q' hq' => h q' (List.mem_cons_of_mem _ hq'), List.length_cons, Nat.mul_succ, Nat.add_comm]

theorem getElem_of_flatten {α : Type*} {n : ℕ} {L : List (List α)} (h : ∀ q ∈ L, q.length = n) (rest : List α)
    {j : ℕ} (hj : j < L.length) : L[j] = ((L.flatten ++ rest).drop (n * j)).take n := by
  induction L generalizing j with
  | nil => exact absurd hj (Nat.not_lt_zero j)
  | cons q L ih =>
    have hq := h q List.mem_cons_self
    rw [List.flatten_cons, List.append_assoc]
    cases j with
    | zero => rw [Nat.mul_zero, List.drop_zero, List.take_left' hq, List.getElem_cons_zero]
    | succ j =>
      rw [List.getElem_cons_succ, Nat.mul_succ, Nat.add_comm (n * j), ← List.drop_drop, List.drop_left' hq]
      exact ih (fun q' hq' => h q' (List.mem_cons_of_mem _ hq')) (Nat.lt_of_succ_lt_succ hj)

theorem getElem_completed (hrun : Lts.run (step iocMask) (start buff buffSize mem) es = some s) {j : ℕ}
    (hj : j < s.completed.length) : s.completed[j] = ((storedWords es).drop (beats * j)).take beats := by
  rw [← stored_run hrun]
  exact getElem_of_flatten (blocksSized_run hrun).1 s.filling hj

theorem length_storedWords (hrun : Lts.run (step iocMask) (start buff buffSize mem) es = some s) :
    (storedWords es).length = beats * s.completed.length + s.filling.length := by
  rw [← stored_run hrun, List.length_append, length_flatten_of_length (blocksSized_run hrun).1]

theorem block_of_sending {n : ℕ} (hn : 0 < n)
    (hrun : Lts.run (step iocMask) (start buff (n * 1024) mem) es = some s) {snd : Host.Send}
    (hpc : s.pc = .sending snd) (hfew : s.completed.length < snd.packet + (n - 1)) :
    ∃ j, snd.packet = j + 1 ∧ ∃ hj : j < s.completed.length,
      BlockRing.block s.mem beats snd.payload = s.completed[j] := by
  rw [← Host.startRing_eq_start] at hrun
  obtain ⟨hring, hcall, -⟩ := Host.reachable_invariants hn (le_refl _) hrun
  obtain ⟨j, hpacket, hj, hpayload⟩ := hcall.captured snd.toPbufRef (by rw [hpc]; rfl)
  refine ⟨j, hpacket, hj, ?_⟩
  rw [hpayload]
  apply hring.holds.recent j _ (List.getElem?_eq_getElem hj)
  omega

end Stored

/-! ### The whole path -/

/-- The words of a pair, left first. -/
def pairWords (p : ℕ × AxisType × AxisType) : List (BitVec 32) := [p.2.1.data.V, p.2.2.data.V]

/-- The last word stored came with `last`. -/
def endsPacket (u : Startup) (es : List Event) : Bool :=
  (u.delivered[(storedWords es).length - 1]?).any AxisType.last

theorem filled_iff_endsPacket (u : Startup) {iocMask : BitVec 32} {buff buffSize : ℕ} {mem : ℕ → BitVec 32}
    {es : List Event} {s : Host.State} (hrun : Lts.run (step iocMask) (start buff buffSize mem) es = some s)
    (hstream : storedWords es <+: u.delivered.map (·.data.V)) (hne : s.filling ≠ []) :
    s.filling.length = beats ↔ endsPacket u es = true := by
  have hlen := length_storedWords hrun
  have hfilling := (blocksSized_run hrun).2
  have hpos := List.length_pos_iff.mpr hne
  have hle := hstream.length_le
  rw [List.length_map] at hle
  have hlast := last_delivered_iff u (k := (storedWords es).length - 1) (by omega)
  rw [endsPacket, List.getElem?_eq_getElem (by omega), Option.any_some, hlast]
  have hbeats : beats = 256 := rfl
  rw [hbeats] at hlen hfilling ⊢
  omega

/-- While `udp_sendto` runs, the datagram holds the words of a packet of the stream. -/
theorem datagram_pairs (u : Startup) {iocMask : BitVec 32} {buff buffSize : ℕ} {mem : ℕ → BitVec 32}
    (hdvd : 1024 ∣ buffSize) (hn : 2 ≤ buffSize / 1024) {es : List Event} {s : Host.State}
    (hrun : Lts.run (step iocMask) (start buff buffSize mem) es = some s)
    (hstream : storedWords es <+: u.delivered.map (·.data.V)) {snd : Host.Send} (hpc : s.pc = .sending snd)
    (hfew : s.completed.length < snd.packet + (buffSize / 1024 - 1)) :
    1 ≤ snd.packet ∧ (packetPairs u.calls (snd.packet - 1)).length = 128 ∧
      BlockRing.block s.mem beats snd.payload = (packetPairs u.calls (snd.packet - 1)).flatMap pairWords := by
  obtain ⟨n, rfl⟩ := hdvd
  rw [Nat.mul_div_cancel_left n (by decide)] at hn hfew
  rw [Nat.mul_comm] at hrun
  obtain ⟨j, hpacket, hj, hblock⟩ := block_of_sending (Nat.lt_of_lt_of_le Nat.zero_lt_two hn) hrun hpc hfew
  have hlen := length_storedWords hrun
  have hwords : storedWords es <+: (CallTrace.emitted firHw FirHwState.initial u.calls).map (·.data.V) :=
    hstream.trans ((prefix_emitted u).map _)
  have hbeats : beats = 256 := rfl
  have hlong : 256 * j + 256 ≤ (storedWords es).length := by
    rw [hlen, hbeats]
    omega
  obtain ⟨hpairs, htake⟩ := packet_beats (fun b : AxisType => b.data.V) hwords hlong
  rw [hpacket, Nat.add_sub_cancel]
  refine ⟨Nat.succ_pos j, hpairs, ?_⟩
  rw [hblock, getElem_completed hrun hj]
  exact htake

/-- **From the samples to the datagrams.** The core is started up and programmed by `FIR_init`, and the DMA
stores what leaves the core. Then in every interleaving of the DMA, its interrupts and the main loop:
the block under DMA is full just when a packet of the stream ends; and while `udp_sendto` runs, and
fewer than `n - 1` packets have been completed since the payload was assigned, the datagram holds the words of
the 128 pairs of that packet of the stream, which from the second packet on are those of the filter, for
every third pair of samples. -/
theorem audio_path (u : Startup) (iocMask : BitVec 32) (buff buffSize : ℕ) (mem : ℕ → BitVec 32)
    (hdvd : 1024 ∣ buffSize) (hn : 2 ≤ buffSize / 1024) (es : List Event) (s : Host.State)
    (hrun : Lts.run (step iocMask) (start buff buffSize mem) es = some s)
    (hstream : storedWords es <+: u.delivered.map (·.data.V)) :
    (s.filling ≠ [] → (s.filling.length = beats ↔ endsPacket u es = true)) ∧
    ∀ snd, s.pc = .sending snd → s.completed.length < snd.packet + (buffSize / 1024 - 1) →
      (packetPairs u.calls (snd.packet - 1)).length = 128 ∧
      BlockRing.block s.mem beats snd.payload = (packetPairs u.calls (snd.packet - 1)).flatMap pairWords ∧
      (2 ≤ snd.packet → ((packetPairs u.calls (snd.packet - 1)).IsChain fun p q => q.1 = p.1 + 3) ∧
        ∀ p ∈ packetPairs u.calls (snd.packet - 1),
          p.2.1.data = filterWord FirHwArgs.inputL u.calls p.1 ∧
            p.2.2.data = filterWord FirHwArgs.inputR u.calls p.1) := by
  refine ⟨filled_iff_endsPacket u hrun hstream, fun snd hpc hfew => ?_⟩
  obtain ⟨-, hlength, hblock⟩ := datagram_pairs u hdvd hn hrun hstream hpc hfew
  exact ⟨hlength, hblock, fun hlate => filtered_packet u (by omega)⟩

/-! ### The second datagram -/

theorem storedWords_append (es fs : List Event) : storedWords (es ++ fs) = storedWords es ++ storedWords fs :=
  List.flatMap_append

theorem storedWords_beats (words : List (BitVec 32)) : storedWords (words.map .beat) = words := by
  induction words with
  | nil => rfl
  | cons word words ih => exact congrArg (List.cons word) ih

theorem storedWords_sendAfter (packets : List Host.Packet) :
    storedWords (Host.sendAfter packets) = packets.flatten := by
  have hpackets : storedWords (packets.flatMap (Host.packetEvents · 0x1000)) = packets.flatten := by
    induction packets with
    | nil => rfl
    | cons packet packets ih =>
      rw [List.flatMap_cons, storedWords_append, ih, Host.packetEvents, storedWords_append, storedWords_beats,
        List.flatten_cons]
      exact congrArg (· ++ packets.flatten) (List.append_nil packet)
  rw [Host.sendAfter, storedWords_append, hpackets]
  exact List.append_nil _

/-- The second packet of a stream is being sent when the first word of the third one is stored. -/
theorem run_secondDatagram {words : List (BitVec 32)} (hlong : 513 ≤ words.length) :
    ∃ es s snd, Lts.run (step 0x1000) (start 0 2048 fun _ => 0) es = some s ∧ storedWords es <+: words ∧
      s.pc = .sending snd ∧ snd.packet = 2 ∧ s.completed.length = 2 ∧ s.filling ≠ [] := by
  have hbeats : beats = 256 := rfl
  have hpackets : ∀ packet ∈ [words.take 256, (words.drop 256).take 256], packet.length = beats := by
    simp only [List.mem_cons, List.not_mem_nil, or_false, forall_eq_or_imp, forall_eq, List.length_take,
      List.length_drop]
    omega
  obtain ⟨s, snd, hrun, hpc, -, -, hpacket, hcompleted⟩ :=
    Host.run_sendAfter [words.take 256, (words.drop 256).take 256] (List.cons_ne_nil _ _) hpackets 0 2048 fun _ => 0
  have hfilling : s.filling = [] := by
    have hstored := stored_run hrun
    rw [storedWords_sendAfter, hcompleted] at hstored
    exact List.append_right_eq_self.mp hstored
  have hone : ((words.drop 512).take 1).length = 1 := by
    rw [List.length_take, List.length_drop]
    omega
  obtain ⟨mem, hbeat⟩ := Host.run_beats 0x1000 ((words.drop 512).take 1) s (by rw [hfilling, hone]; decide)
  refine ⟨_, _, snd, Lts.run_append.mpr ⟨s, hrun, hbeat⟩, ?_, hpc, hpacket, ?_, ?_⟩
  · have htake : storedWords (Host.sendAfter [words.take 256, (words.drop 256).take 256] ++
        ((words.drop 512).take 1).map Event.beat) = words.take (256 + 256 + 1) := by
      rw [storedWords_append, storedWords_sendAfter, storedWords_beats, List.take_add, List.take_add]
      simp
    rw [htake]
    exact List.take_prefix _ _
  · exact congrArg List.length hcompleted
  · rw [hfilling, List.nil_append]
    exact List.ne_nil_of_length_eq_add_one hone

open FirHwRtl (shippedStartup length_delivered_shipped) in
theorem audio_path_shipped :
    ∃ es s snd, Lts.run (step 0x1000) (start 0 2048 fun _ => 0) es = some s ∧ s.pc = .sending snd ∧
      snd.packet = 2 ∧ (s.filling.length = beats ↔ endsPacket shippedStartup es = true) ∧
      (packetPairs shippedStartup.calls 1).length = 128 ∧
      BlockRing.block s.mem beats snd.payload = (packetPairs shippedStartup.calls 1).flatMap pairWords ∧
      ((packetPairs shippedStartup.calls 1).IsChain fun p q => q.1 = p.1 + 3) ∧
      ∀ p ∈ packetPairs shippedStartup.calls 1,
        p.2.1.data = filterWord FirHwArgs.inputL shippedStartup.calls p.1 ∧
          p.2.2.data = filterWord FirHwArgs.inputR shippedStartup.calls p.1 := by
  have hlong : 513 ≤ (shippedStartup.delivered.map (·.data.V)).length := by
    rw [List.length_map]
    exact length_delivered_shipped
  obtain ⟨es, s, snd, hrun, hstream, hpc, hpacket, hcompleted, hfilling⟩ := run_secondDatagram hlong
  obtain ⟨hends, hdatagram⟩ := audio_path shippedStartup 0x1000 0 2048 (fun _ => 0) (by decide) (by decide) es s
    hrun hstream
  have hpath := hdatagram snd hpc (by rw [hpacket, hcompleted]; decide)
  rw [hpacket] at hpath
  exact ⟨es, s, snd, hrun, hpc, hpacket, hends hfilling, hpath.1, hpath.2.1, hpath.2.2 (le_refl 2)⟩

end FpgaLabor
