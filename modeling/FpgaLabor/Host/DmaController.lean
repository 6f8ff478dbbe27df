import FpgaLabor.Base.BlockRing
import Mathlib.Data.BitVec

/-!
# The DMA ring controller

The globals of `dma_controller.cpp`, its interrupt handler and its initialisation. Pointers are
addresses. `XAXIDMA_IRQ_IOC_MASK` comes with the DMA driver and is a parameter.
-/

namespace FpgaLabor.Host

open BlockRing (advance)

/-- The globals of `dma_controller.cpp`. -/
structure DmaGlobals where
  gBuff : ℕ
  gBuffSize : ℕ
  gTransferSize : ℕ
  dmaPtrAxi : ℕ
  dmaPtrEth : ℕ
  dmaDataAvailable : Bool

/-- The arguments of an `XAxiDma_SimpleTransfer`. -/
structure SimpleTransfer where
  addr : ℕ
  length : ℕ

/-- `RxIntrHandler`: the globals it leaves and the transfer it starts. -/
def rxIntrHandler (iocMask irqStatus : BitVec 32) (d : DmaGlobals) : DmaGlobals × Option SimpleTransfer :=
  if irqStatus &&& iocMask = 0 then (d, none)
  else
    let d := { d with dmaPtrEth := d.dmaPtrAxi, dmaDataAvailable := true }
    let d := { d with dmaPtrAxi := d.dmaPtrAxi + d.gTransferSize }
    let d := if d.gBuff + d.gBuffSize ≤ d.dmaPtrAxi then { d with dmaPtrAxi := d.gBuff } else d
    (d, some ⟨d.dmaPtrAxi, d.gTransferSize⟩)

/-- Which calls of `dma_it_init` into the driver succeed. -/
structure Bringup where
  lookupConfig : Bool
  cfgInitialize : Bool
  setupInterruptSystem : Bool

/-- `dma_it_init`: the globals it leaves and the transfer it starts, if it gets that far. -/
def dmaItInit (hw : Bringup) (d : DmaGlobals) (buff buffSize transferSize : ℕ) :
    DmaGlobals × Option SimpleTransfer :=
  let d := { d with gBuff := buff, gBuffSize := buffSize, gTransferSize := transferSize, dmaPtrAxi := buff }
  if !hw.lookupConfig then (d, none)
  else if !hw.cfgInitialize then (d, none)
  else if !hw.setupInterruptSystem then (d, none)
  else (d, some ⟨d.dmaPtrAxi, d.gTransferSize⟩)

/-- The globals after an IOC interrupt: the block just filled is handed over, the next one is armed. -/
def DmaGlobals.handOver (d : DmaGlobals) : DmaGlobals :=
  { d with
    dmaPtrEth := d.dmaPtrAxi
    dmaDataAvailable := true
    dmaPtrAxi := advance d.gBuff d.gBuffSize d.gTransferSize d.dmaPtrAxi }

theorem rxIntrHandler_of_ioc {iocMask irqStatus : BitVec 32} (h : irqStatus &&& iocMask ≠ 0)
    (d : DmaGlobals) : rxIntrHandler iocMask irqStatus d =
      (d.handOver, some ⟨d.handOver.dmaPtrAxi, d.gTransferSize⟩) := by
  rw [rxIntrHandler, if_neg h]
  simp only [DmaGlobals.handOver, advance]
  split
  · rfl
  · rfl

theorem rxIntrHandler_of_not_ioc {iocMask irqStatus : BitVec 32} (h : irqStatus &&& iocMask = 0)
    (d : DmaGlobals) : rxIntrHandler iocMask irqStatus d = (d, none) :=
  if_pos h

end FpgaLabor.Host
