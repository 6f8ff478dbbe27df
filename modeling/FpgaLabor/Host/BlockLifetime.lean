import FpgaLabor.Host.HandOff
import FpgaLabor.Host.RingWalk

/-!
# How long a block handed over stays intact

`RxIntrHandler` arms the block after the one it hands over, so the DMA is back at the latter after one
lap. The payload of a pbuf is that block itself and not a copy (`PBUF_REF`): it keeps the packet until
`n - 1` further packets are completed, and the beats that follow overwrite it. The payload is of 1024 bytes
whatever the transfer size is, so blocks of fewer bytes do not protect it (`block_lifetime_smallBlocks`).
-/

namespace FpgaLabor.Host

open BlockRing

variable {iocMask : BitVec 32} {s s' : State} {buff n t j : ℕ}

theorem step_completed {e : Event} (h : step iocMask s e = some s') : s.completed <+: s'.completed := by
  cases e with
  | beat word =>
    rw [(step_beat h).2]
  | irq irqStatus =>
    rcases step_irq h with ⟨-, rfl⟩ | ⟨-, -, rfl⟩
    · exact List.prefix_refl _
    · exact List.prefix_append _ _
  | _ =>
    obtain ⟨-, -, -, hcompleted, -⟩ := step_ring h nofun nofun
    rw [hcompleted]

theorem run_completed {es : List Event} (h : Lts.run (step iocMask) s es = some s') :
    s.completed <+: s'.completed :=
  Lts.run_induction (I := fun t => s.completed <+: t.completed)
    (fun _ _ _ hmono hs => hmono.trans (step_completed hs)) (List.prefix_refl _) h

theorem pointers_lifetime {buff buffSize transferSize j m : ℕ} {d d' : DmaGlobals}
    (hd : Pointers buff buffSize transferSize (j + 1) d)
    (hd' : Pointers buff buffSize transferSize (j + 1 + m) d') :
    (∃ i < stops buffSize transferSize, d.dmaPtrEth = buff + i * transferSize ∧
        d.dmaPtrAxi = buff + (i + 1) % stops buffSize transferSize * transferSize) ∧
      (m < stops buffSize transferSize - 1 → Apart transferSize d.dmaPtrEth d'.dmaPtrAxi) ∧
      (m = stops buffSize transferSize - 1 → d'.dmaPtrAxi = d.dmaPtrEth) := by
  have hn := stops_pos buffSize transferSize
  rw [hd.eth j rfl, hd.axi, hd'.axi]
  refine ⟨⟨j % stops buffSize transferSize, Nat.mod_lt j hn, rfl, ?_⟩, slot_lifetime hn j m⟩
  rw [Nat.mod_add_mod, slot]

/-- The memory of the block just handed over: its packet, and the beat that overwrites it. -/
theorem ring_lifetime (hn : 0 < n) (hs : RingInv buff n t s) (hs' : RingInv buff n t s')
    (hj : s.completed.length = j + 1) (hmono : s.completed <+: s'.completed) :
    (s'.completed.length < s.completed.length + (n - 1) →
        s.completed.getLast? = some (block s'.mem beats s.dma.dmaPtrEth)) ∧
      (s'.completed.length = s.completed.length + (n - 1) → s'.armed.addr = s.dma.dmaPtrEth ∧
        ∀ word s'', step iocMask s' (.beat word) = some s'' →
          (block s''.mem beats s.dma.dmaPtrEth)[s'.filling.length]? = some word) := by
  obtain ⟨rest, hrest⟩ := hmono
  have hlen : s'.completed.length = j + 1 + rest.length := by rw [← hrest, List.length_append, hj]
  rw [hj, hlen, hs.eth j hj]
  refine ⟨?_, ?_⟩
  · intro hlt
    have hlast : j < s.completed.length := by omega
    have hget : s'.completed[j]? = some s.completed[j] := by
      rw [← hrest, List.getElem?_append_left hlast, List.getElem?_eq_getElem hlast]
    rw [hs'.holds.recent j _ hget (by omega), List.getLast?_eq_getElem?, hj, Nat.add_sub_cancel,
      List.getElem?_eq_getElem hlast]
  · intro heq
    have haddr : s'.armed.addr = slot buff n t j := by
      rw [hs'.armed, hlen]
      exact (slot_lifetime hn j rest.length).2 (by omega)
    refine ⟨haddr, fun word s'' hbeat => ?_⟩
    obtain ⟨hfilling, rfl⟩ := step_beat hbeat
    rw [haddr]
    exact getElem?_block_update hfilling

/-- **The lifetime of a block.** For every ring of `n` blocks: after an IOC interrupt, the block under DMA
is the cyclic successor of the one handed over, the two are apart for fewer than `n - 1` further IOC
interrupts, and the DMA is back after `n - 1`. If a packet fits into a block, the block handed over keeps its
packet as long as fewer than `n - 1` further ones are completed; then the beats that follow are stored in it. -/
theorem block_lifetime (iocMask : BitVec 32) (buff buffSize transferSize : ℕ)
    (hdvd : transferSize ∣ buffSize) (hn : 1 ≤ buffSize / transferSize) :
    (∀ d₀ statuses later d d', 0 < iocs iocMask statuses →
      d = globalsAfter iocMask d₀ buff buffSize transferSize statuses →
      d' = globalsAfter iocMask d₀ buff buffSize transferSize (statuses ++ later) →
      (∃ i < buffSize / transferSize, d.dmaPtrEth = buff + i * transferSize ∧
        d.dmaPtrAxi = buff + (i + 1) % (buffSize / transferSize) * transferSize) ∧
      (iocs iocMask later < buffSize / transferSize - 1 →
        Apart transferSize d.dmaPtrEth d'.dmaPtrAxi) ∧
      (iocs iocMask later = buffSize / transferSize - 1 → d'.dmaPtrAxi = d.dmaPtrEth)) ∧
    (1024 ≤ transferSize → ∀ mem es more s s', s.completed ≠ [] →
      Lts.run (step iocMask) (startRing buff buffSize transferSize mem) es = some s →
      Lts.run (step iocMask) s more = some s' →
      (s'.completed.length < s.completed.length + (buffSize / transferSize - 1) →
        s.completed.getLast? = some (block s'.mem beats s.dma.dmaPtrEth)) ∧
      (s'.completed.length = s.completed.length + (buffSize / transferSize - 1) →
        s'.armed.addr = s.dma.dmaPtrEth ∧
        ∀ word s'', step iocMask s' (.beat word) = some s'' →
          (block s''.mem beats s.dma.dmaPtrEth)[s'.filling.length]? = some word)) := by
  refine ⟨?_, ?_⟩
  · rintro d₀ statuses later _ _ hioc rfl rfl
    obtain ⟨j, hj⟩ : ∃ j, iocs iocMask statuses = j + 1 := Nat.exists_eq_add_of_le' hioc
    have hd := pointers_globalsAfter iocMask d₀ buff buffSize transferSize statuses
    have hd' := pointers_globalsAfter iocMask d₀ buff buffSize transferSize (statuses ++ later)
    rw [hj] at hd
    rw [iocs_append, hj] at hd'
    rw [← stops_eq_div hdvd hn]
    exact pointers_lifetime hd hd'
  · intro ht mem es more s s' hne hrun hmore
    have hsize : buffSize = buffSize / transferSize * transferSize := (Nat.div_mul_cancel hdvd).symm
    rw [hsize] at hrun
    obtain ⟨hs, -, -⟩ := reachable_invariants hn ht hrun
    obtain ⟨hs', -, -⟩ := reachable_invariants hn ht (Lts.run_append.mpr ⟨s, hrun, hmore⟩)
    obtain ⟨j, hj⟩ : ∃ j, s.completed.length = j + 1 :=
      Nat.exists_eq_add_of_le' (List.length_pos_iff.mpr hne)
    exact ring_lifetime hn hs hs' hj (run_completed hmore)

/-- The first block of the 16 KiB ring 14 and 15 IOC interrupts later, and a ring of three blocks that are
larger than a packet: its second block keeps the second packet while the third one is completed. -/
theorem block_lifetime_shipped :
    Apart 1024 (globalsAfter 0x1000 zeroGlobals 0 16384 1024 [0x1000]).dmaPtrEth
        (globalsAfter 0x1000 zeroGlobals 0 16384 1024
          ([0x1000] ++ List.replicate 14 0x1000)).dmaPtrAxi ∧
      (globalsAfter 0x1000 zeroGlobals 0 16384 1024 ([0x1000] ++ List.replicate 15 0x1000)).dmaPtrAxi =
        (globalsAfter 0x1000 zeroGlobals 0 16384 1024 [0x1000]).dmaPtrEth ∧
      ∃ s s', Lts.run (step 0x1000) (startRing 0 3600 1200 (BitVec.ofNat 32))
          ([countingPacket 0, countingPacket 1].flatMap (packetEvents · 0x1000)) = some s ∧
        Lts.run (step 0x1000) s ([countingPacket 2].flatMap (packetEvents · 0x1000)) = some s' ∧
        block s'.mem beats s.dma.dmaPtrEth = countingPacket 1 := by
  refine ⟨?_, ?_, ?_⟩
  · exact ((block_lifetime 0x1000 0 16384 1024 (by decide) (by decide)).1 zeroGlobals [0x1000]
      (List.replicate 14 0x1000) _ _ (by decide) rfl rfl).2.1 (by decide)
  · exact ((block_lifetime 0x1000 0 16384 1024 (by decide) (by decide)).1 zeroGlobals [0x1000]
      (List.replicate 15 0x1000) _ _ (by decide) rfl rfl).2.2 (by decide)
  · have hioc : (0x1000 : BitVec 32) &&& 0x1000 ≠ 0 := by decide
    obtain ⟨dma, mem, armed, -, hrun⟩ :=
      run_packets [countingPacket 0, countingPacket 1] (by simp [length_countingPacket]) hioc
        (startRing 0 3600 1200 (BitVec.ofNat 32)) rfl nofun
    obtain ⟨dma', mem', armed', -, hmore⟩ :=
      run_packets [countingPacket 2] (by simp [length_countingPacket]) hioc
        { startRing 0 3600 1200 (BitVec.ofNat 32) with
          dma := dma, mem := mem, armed := armed, completed := [countingPacket 0, countingPacket 1] } rfl nofun
    have hkept := ((block_lifetime 0x1000 0 3600 1200 (by decide) (by decide)).2 (by decide) _ _ _ _ _
      (List.cons_ne_nil _ _) hrun hmore).1 (show 3 < 2 + (3600 / 1200 - 1) by decide)
    exact ⟨_, _, hrun, hmore, (Option.some.inj hkept).symm⟩

theorem run_packet_beat (buff buffSize transferSize : ℕ) (mem : ℕ → BitVec 32) {packet : Packet} (word : BitVec 32)
    (hlen : packet.length = beats) :
    ∃ s s' mem', Lts.run (step 0x1000) (startRing buff buffSize transferSize mem) (packetEvents packet 0x1000) =
        some s ∧
      Lts.run (step 0x1000) s [.beat word] = some s' ∧ s.completed = [packet] ∧ s'.completed = [packet] ∧
      s.dma.dmaPtrEth = buff ∧ s.armed = ⟨advance buff buffSize transferSize buff, transferSize⟩ ∧
      s'.mem = Function.update mem' (advance buff buffSize transferSize buff) word := by
  have hioc : (0x1000 : BitVec 32) &&& 0x1000 ≠ 0 := by decide
  obtain ⟨mem', hrun⟩ := run_packetEvents (s := startRing buff buffSize transferSize mem) hlen hioc rfl
  exact ⟨_, _, mem', hrun, rfl, rfl, rfl, rfl, rfl, rfl⟩

/-- In a ring of four blocks of 512 bytes the payload of the first packet reaches into the block under DMA: the
first beat of the next packet is word 128 of the payload, whatever is in memory. -/
theorem block_lifetime_smallBlocks :
    ∃ s s', Lts.run (step 0x1000) (startRing 0 2048 512 (BitVec.ofNat 32))
        (packetEvents (countingPacket 0) 0x1000) = some s ∧
      Lts.run (step 0x1000) s [.beat 0x0badf00d] = some s' ∧ s.completed = [countingPacket 0] ∧
      s'.completed.length < s.completed.length + (2048 / 512 - 1) ∧
      s.dma.dmaPtrEth = 0 ∧ s.armed = ⟨512, 512⟩ ∧ ¬ Apart 1024 s.dma.dmaPtrEth s.armed.addr ∧
      (∀ (mem : ℕ → BitVec 32) word, (block (Function.update mem s.armed.addr word) beats s.dma.dmaPtrEth)[128]? =
        some word) ∧
      s.completed.getLast? ≠ some (block s'.mem beats s.dma.dmaPtrEth) := by
  obtain ⟨s, s', mem, hrun, hbeat, hcompleted, hcompleted', heth, harmed, hmem⟩ :=
    run_packet_beat 0 2048 512 (BitVec.ofNat 32) 0x0badf00d (length_countingPacket 0)
  have haxi : advance 0 2048 512 0 = 512 := by simp [advance]
  have hoverlap : ∀ (mem : ℕ → BitVec 32) word, (block (Function.update mem 512 word) beats 0)[128]? = some word := by
    intro mem word
    exact getElem?_block_update (p := 0) (j := 128) (by decide)
  rw [haxi] at harmed hmem
  refine ⟨s, s', hrun, hbeat, hcompleted, ?_, heth, harmed, ?_, ?_, ?_⟩
  · rw [hcompleted, hcompleted']
    decide
  · rw [heth, harmed, Apart]
    decide
  · rw [heth, harmed]
    exact hoverlap
  · rw [hcompleted, heth, hmem]
    intro hkept
    have hword := congrArg (·[128]?) (Option.some.inj hkept)
    have hrange : (List.range beats)[128]? = some 128 := List.getElem?_range (by decide)
    rw [hoverlap] at hword
    simp [countingPacket, hrange] at hword

end FpgaLabor.Host
