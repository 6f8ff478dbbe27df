import FpgaLabor.Base.Mealy
import FpgaLabor.Host.DmaController
import Mathlib.Data.List.ReduceOption

/-!
# The walk of the DMA controller through its ring

All transfers that `dma_it_init` and `RxIntrHandler` start over a sequence of interrupts. An interrupt
without IOC does nothing, so the pointers depend on the number of those with IOC only (`Pointers`). The
handler compares the start of the next block with the end of the ring: it stays inside just if
`g_transfer_size` divides `g_buff_size`.
-/

namespace FpgaLabor.Host

open BlockRing

/-- The globals after `dma_it_init` and the interrupts with the status words `statuses`. -/
def globalsAfter (iocMask : BitVec 32) (d₀ : DmaGlobals) (buff buffSize transferSize : ℕ)
    (statuses : List (BitVec 32)) : DmaGlobals :=
  Mealy.runState (fun d irqStatus => rxIntrHandler iocMask irqStatus d)
    (dmaItInit ⟨true, true, true⟩ d₀ buff buffSize transferSize).1 statuses

/-- The transfers started by `dma_it_init` and by those interrupts, in order. -/
def transfers (iocMask : BitVec 32) (d₀ : DmaGlobals) (buff buffSize transferSize : ℕ)
    (statuses : List (BitVec 32)) : List SimpleTransfer :=
  (dmaItInit ⟨true, true, true⟩ d₀ buff buffSize transferSize).2.toList ++
    (Mealy.outputs (fun d irqStatus => rxIntrHandler iocMask irqStatus d)
      (dmaItInit ⟨true, true, true⟩ d₀ buff buffSize transferSize).1 statuses).reduceOption

/-- The number of IOC interrupts. -/
def iocs (iocMask : BitVec 32) (statuses : List (BitVec 32)) : ℕ :=
  statuses.countP fun irqStatus => irqStatus &&& iocMask != 0

section Counting

variable {iocMask irqStatus : BitVec 32} {statuses : List (BitVec 32)}

theorem iocs_append (iocMask : BitVec 32) (statuses later : List (BitVec 32)) :
    iocs iocMask (statuses ++ later) = iocs iocMask statuses + iocs iocMask later :=
  List.countP_append

theorem iocs_concat_of_ioc (h : irqStatus &&& iocMask ≠ 0) :
    iocs iocMask (statuses ++ [irqStatus]) = iocs iocMask statuses + 1 := by
  simpa [iocs, List.countP_append] using h

theorem iocs_concat_of_not_ioc (h : irqStatus &&& iocMask = 0) :
    iocs iocMask (statuses ++ [irqStatus]) = iocs iocMask statuses := by
  simp [iocs, List.countP_append, h]

theorem iocs_replicate (h : iocMask ≠ 0) (m : ℕ) : iocs iocMask (List.replicate m iocMask) = m := by
  rw [iocs, List.countP_replicate, if_pos (by simpa using h)]

end Counting

/-! ### The pointers -/

/-- The globals after `k` IOC interrupts: block `k` is under DMA, and the block before it has been handed
over. -/
structure Pointers (buff buffSize transferSize k : ℕ) (d : DmaGlobals) : Prop where
  gBuff : d.gBuff = buff
  gBuffSize : d.gBuffSize = buffSize
  gTransferSize : d.gTransferSize = transferSize
  axi : d.dmaPtrAxi = slot buff (stops buffSize transferSize) transferSize k
  eth : ∀ j, k = j + 1 → d.dmaPtrEth = slot buff (stops buffSize transferSize) transferSize j

variable {iocMask : BitVec 32} {d₀ d : DmaGlobals} {buff buffSize transferSize k : ℕ}

theorem pointers_dmaItInit (d₀ : DmaGlobals) (buff buffSize transferSize : ℕ) :
    Pointers buff buffSize transferSize 0
      (dmaItInit ⟨true, true, true⟩ d₀ buff buffSize transferSize).1 where
  gBuff := rfl
  gBuffSize := rfl
  gTransferSize := rfl
  axi := slot_zero.symm
  eth j hj := by cases hj

theorem Pointers.handOver (h : Pointers buff buffSize transferSize k d) :
    Pointers buff buffSize transferSize (k + 1) d.handOver where
  gBuff := h.gBuff
  gBuffSize := h.gBuffSize
  gTransferSize := h.gTransferSize
  axi := by
    rw [← advance_slot_stops, ← h.axi, ← h.gBuff, ← h.gBuffSize, ← h.gTransferSize]
    rfl
  eth j hj := by
    rw [← Nat.succ.inj hj]
    exact h.axi

theorem pointers_globalsAfter (iocMask : BitVec 32) (d₀ : DmaGlobals) (buff buffSize transferSize : ℕ)
    (statuses : List (BitVec 32)) :
    Pointers buff buffSize transferSize (iocs iocMask statuses)
      (globalsAfter iocMask d₀ buff buffSize transferSize statuses) := by
  refine Mealy.runState_induction (P := fun statuses d =>
    Pointers buff buffSize transferSize (iocs iocMask statuses) d) _
    (pointers_dmaItInit d₀ buff buffSize transferSize) ?_ statuses
  intro statuses irqStatus d h
  by_cases hioc : irqStatus &&& iocMask = 0
  · rw [rxIntrHandler_of_not_ioc hioc, iocs_concat_of_not_ioc hioc]
    exact h
  · rw [rxIntrHandler_of_ioc hioc, iocs_concat_of_ioc hioc]
    exact h.handOver

theorem transfers_eq (iocMask : BitVec 32) (d₀ : DmaGlobals) (buff buffSize transferSize : ℕ)
    (statuses : List (BitVec 32)) :
    transfers iocMask d₀ buff buffSize transferSize statuses =
      (List.range (iocs iocMask statuses + 1)).map fun k =>
        ⟨slot buff (stops buffSize transferSize) transferSize k, transferSize⟩ := by
  induction statuses using List.reverseRecOn with
  | nil =>
    rw [show iocs iocMask [] = 0 from rfl, List.range_one, List.map_singleton, slot_zero]
    rfl
  | append_singleton statuses irqStatus ih =>
    have hpointers := pointers_globalsAfter iocMask d₀ buff buffSize transferSize statuses
    unfold transfers at ih
    rw [transfers, Mealy.outputs_append, List.reduceOption_append, ← List.append_assoc, ih,
      Mealy.outputs_cons, Mealy.outputs_nil]
    unfold globalsAfter at hpointers
    by_cases hioc : irqStatus &&& iocMask = 0
    · rw [rxIntrHandler_of_not_ioc hioc, iocs_concat_of_not_ioc hioc, List.reduceOption_cons_of_none,
        List.reduceOption_nil, List.append_nil]
    · rw [rxIntrHandler_of_ioc hioc, iocs_concat_of_ioc hioc, List.reduceOption_cons_of_some,
        List.reduceOption_nil, hpointers.handOver.axi, hpointers.gTransferSize,
        List.range_succ (n := iocs iocMask statuses + 1), List.map_append, List.map_singleton]

theorem getElem?_transfers {statuses : List (BitVec 32)} (hk : k ≤ iocs iocMask statuses) :
    (transfers iocMask d₀ buff buffSize transferSize statuses)[k]? =
      some ⟨slot buff (stops buffSize transferSize) transferSize k, transferSize⟩ := by
  rw [transfers_eq, List.getElem?_map, List.getElem?_range (Nat.lt_succ_of_le hk), Option.map_some]

/-- **Ring bounds.** All transfers ever started lie in the ring just if the transfer size divides that of
the ring; then transfer `k` fills block `k` modulo the number of blocks, every lap has each block once,
and what is handed over is a block. -/
theorem transfers_in_ring_iff (iocMask : BitVec 32) (hmask : iocMask ≠ 0) (d₀ : DmaGlobals)
    (buff buffSize transferSize : ℕ) (hpos : 0 < transferSize) (hle : transferSize ≤ buffSize) :
    ((∀ statuses, ∀ x ∈ transfers iocMask d₀ buff buffSize transferSize statuses,
        buff ≤ x.addr ∧ x.addr + x.length ≤ buff + buffSize) ↔ transferSize ∣ buffSize) ∧
    (transferSize ∣ buffSize → ∀ statuses,
      (transfers iocMask d₀ buff buffSize transferSize statuses =
        (List.range (iocs iocMask statuses + 1)).map fun k =>
          ⟨buff + k % (buffSize / transferSize) * transferSize, transferSize⟩) ∧
      (∀ lap i, i < buffSize / transferSize →
        (lap + 1) * (buffSize / transferSize) ≤ iocs iocMask statuses + 1 →
        ∃! k, (lap * (buffSize / transferSize) ≤ k ∧ k < (lap + 1) * (buffSize / transferSize)) ∧
          (transfers iocMask d₀ buff buffSize transferSize statuses)[k]? =
            some ⟨buff + i * transferSize, transferSize⟩) ∧
      (0 < iocs iocMask statuses → ∃ i < buffSize / transferSize,
        (globalsAfter iocMask d₀ buff buffSize transferSize statuses).dmaPtrEth =
          buff + i * transferSize)) := by
  refine ⟨?_, ?_⟩
  · rw [← slot_bounds_iff buff hpos hle]
    refine ⟨?_, ?_⟩
    · -- block `k` is armed after `k` interrupts
      intro hall k
      refine (hall (List.replicate k iocMask) ⟨_, transferSize⟩ ?_).2
      rw [transfers_eq, iocs_replicate hmask]
      exact List.mem_map_of_mem (List.mem_range.mpr (Nat.lt_succ_self k))
    · intro hslots statuses x hx
      rw [transfers_eq] at hx
      obtain ⟨k, -, rfl⟩ := List.mem_map.mp hx
      exact ⟨Nat.le_add_right _ _, hslots k⟩
  · intro hdvd statuses
    have hn : 0 < buffSize / transferSize := Nat.div_pos hle hpos
    have heq := transfers_eq iocMask d₀ buff buffSize transferSize statuses
    rw [stops_eq_div hdvd hn] at heq
    refine ⟨heq, fun lap i hi hlap => ?_, fun hioc => ?_⟩
    · -- the block's pass of the lap is that of the pointer
      have hget : ∀ k, k < (lap + 1) * (buffSize / transferSize) →
          ((transfers iocMask d₀ buff buffSize transferSize statuses)[k]? =
            some ⟨buff + i * transferSize, transferSize⟩ ↔
          slot buff (buffSize / transferSize) transferSize k = buff + i * transferSize) := by
        intro k hk
        rw [getElem?_transfers (by omega), stops_eq_div hdvd hn, Option.some.injEq,
          SimpleTransfer.mk.injEq]
        exact and_iff_left rfl
      obtain ⟨k, ⟨hk, haddr⟩, huniq⟩ := existsUnique_slot buff hpos lap hi
      exact ⟨k, ⟨hk, (hget k hk.2).mpr haddr⟩, fun j hj => huniq j ⟨hj.1, (hget j hj.1.2).mp hj.2⟩⟩
    · obtain ⟨j, hj⟩ : ∃ j, iocs iocMask statuses = j + 1 := Nat.exists_eq_add_of_le' hioc
      have heth := (pointers_globalsAfter iocMask d₀ buff buffSize transferSize statuses).eth j hj
      rw [stops_eq_div hdvd hn] at heth
      exact ⟨j % (buffSize / transferSize), Nat.mod_lt j hn, heth⟩

/-- A ring of two blocks with an interrupt that has no IOC in between, and a ring of one block and a
half. -/
theorem transfers_in_ring_two_blocks :
    transfers 0x1000 ⟨0, 0, 0, 0, 0, false⟩ 64 2048 1024 [0x1000, 0x4000, 0x1000] =
        [⟨64, 1024⟩, ⟨1088, 1024⟩, ⟨64, 1024⟩] ∧
      ¬ ∀ statuses, ∀ x ∈ transfers 0x1000 ⟨0, 0, 0, 0, 0, false⟩ 64 1536 1024 statuses,
        64 ≤ x.addr ∧ x.addr + x.length ≤ 64 + 1536 := by
  refine ⟨?_, ?_⟩
  · exact ((transfers_in_ring_iff 0x1000 (by decide) ⟨0, 0, 0, 0, 0, false⟩ 64 2048 1024 (by decide)
      (by decide)).2 (by decide) [0x1000, 0x4000, 0x1000]).1
  · rw [(transfers_in_ring_iff 0x1000 (by decide) ⟨0, 0, 0, 0, 0, false⟩ 64 1536 1024 (by decide)
      (by decide)).1]
    decide

end FpgaLabor.Host
