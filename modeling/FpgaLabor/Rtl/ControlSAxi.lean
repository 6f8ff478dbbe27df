import FpgaLabor.Base.ByteLanes
import FpgaLabor.Base.Mealy
import Mathlib.Logic.Function.Basic

/-!
# The AXI4-Lite slave `control_s_axi`

The register file of `fir_hw`: three registers and the 512-word coefficient memory, behind a write state
machine and a read state machine that share one port of the memory. `step` is one clock edge with every
channel of the bus moving independently.

What the slave is for is said by `RegisterFile`: accesses that happen one at a time. A write takes effect
in the cycle of its `W` handshake and a read in the cycle of its `AR` handshake; `commit` lists them. The
memory port is arbitrated so that no cycle has both. `control_linearizable` says that, whatever the masters
do, the registers, the memory and every word read are those of the accesses taken one at a time in that
order, and that each access is one the masters asked for.
-/

namespace FpgaLabor

/-! ### The register file -/

/-- What the slave stores: its three registers and the coefficient memory. -/
structure RegisterFile where
  tlastDnum : BitVec 16
  smplRdNum : BitVec 3
  tapNumM1 : BitVec 9
  coeffHw : BitVec 9 → BitVec 32

/-- One access of a bus master. -/
inductive Access
  | write (addr : BitVec 12) (data : BitVec 32) (strb : BitVec 4)
  | read (addr : BitVec 12)

/-- `ADDR_TLAST_DNUM_DATA_0`. -/
def addrTlastDnumData0 : BitVec 12 := 0x010

/-- `ADDR_SMPL_RD_NUM_DATA_0`. -/
def addrSmplRdNumData0 : BitVec 12 := 0x018

/-- `ADDR_TAP_NUM_M1_DATA_0`. -/
def addrTapNumM1Data0 : BitVec 12 := 0x020

/-- `ADDR_COEFF_HW_BASE`. -/
def addrCoeffHwBase : BitVec 12 := 0x800

/-- `ADDR_COEFF_HW_HIGH`. -/
def addrCoeffHwHigh : BitVec 12 := 0xfff

/-- `{AWADDR[ADDR_BITS-1:2], {2{1'b0}}}`. -/
def aligned (addr : BitVec 12) : BitVec 12 := addr.extractLsb' 2 10 ++ 0#2

/-- The word of the coefficient memory at a byte address, `addr[10:2]`. -/
def coeffWord (addr : BitVec 12) : BitVec 9 := addr.extractLsb' 2 9

/-- A register of `w` bits written with the strobed bytes of a data word. -/
def writeReg {w : ℕ} (old : BitVec w) (data : BitVec 32) (strb : BitVec 4) : BitVec w :=
  (ByteLanes.merge (ByteLanes.wmask strb) data (old.setWidth 32)).setWidth w

/-- The address of a write. -/
def Access.writeAddr : Access → Option (BitVec 12)
  | .write addr _ _ => some addr
  | .read _ => none

/-- The data word of a write and its strobes. -/
def Access.writeData : Access → Option (BitVec 32 × BitVec 4)
  | .write _ data strb => some (data, strb)
  | .read _ => none

/-- The address of a read. -/
def Access.readAddr : Access → Option (BitVec 12)
  | .write .. => none
  | .read addr => some addr

namespace RegisterFile

/-- A write: the register at the word address, or a word of the memory, or nothing. -/
def write (f : RegisterFile) (addr : BitVec 12) (data : BitVec 32) (strb : BitVec 4) : RegisterFile :=
  if addrCoeffHwBase ≤ addr then
    let word := ByteLanes.writeBytes strb data (f.coeffHw (coeffWord addr))
    { f with coeffHw := Function.update f.coeffHw (coeffWord addr) word }
  else if aligned addr = addrTlastDnumData0 then { f with tlastDnum := writeReg f.tlastDnum data strb }
  else if aligned addr = addrSmplRdNumData0 then { f with smplRdNum := writeReg f.smplRdNum data strb }
  else if aligned addr = addrTapNumM1Data0 then { f with tapNumM1 := writeReg f.tapNumM1 data strb }
  else f

/-- A read: the registers answer at their exact address, the memory at every byte of a word. -/
def read (f : RegisterFile) (addr : BitVec 12) : BitVec 32 :=
  if addrCoeffHwBase ≤ addr then f.coeffHw (coeffWord addr)
  else if addr = addrTlastDnumData0 then f.tlastDnum.setWidth 32
  else if addr = addrSmplRdNumData0 then f.smplRdNum.setWidth 32
  else if addr = addrTapNumM1Data0 then f.tapNumM1.setWidth 32
  else 0

/-- One access, with the word it returns. -/
def access (f : RegisterFile) : Access → RegisterFile × Option (BitVec 32)
  | .write addr data strb => (f.write addr data strb, none)
  | .read addr => (f, some (f.read addr))

/-- The words returned by the accesses `ops`, one for each read. -/
def reads (f : RegisterFile) (ops : List Access) : List (BitVec 32) :=
  (Mealy.outputs access f ops).filterMap id

end RegisterFile

/-! ### The slave -/

/-- `wstate`. -/
inductive WState
  | wrIdle
  | wrData
  | wrResp
  | wrReset
deriving DecidableEq, Repr

/-- `rstate`. -/
inductive RState
  | rdIdle
  | rdData
  | rdReset
deriving DecidableEq, Repr

/-- The registers of the module and of its memory. -/
structure ControlSAxi where
  wstate : WState
  waddr : BitVec 12
  rstate : RState
  rdata : BitVec 32
  intTlastDnum : BitVec 16
  intSmplRdNum : BitVec 3
  intTapNumM1 : BitVec 9
  intCoeffHwRead : Bool
  intCoeffHwWrite : Bool
  mem : BitVec 9 → BitVec 32
  q0 : BitVec 32
  q1 : BitVec 32

/-- The inputs of one cycle. `ACLK_EN` is tied high. -/
structure ControlIn where
  aReset : Bool
  awAddr : BitVec 12
  awValid : Bool
  wData : BitVec 32
  wStrb : BitVec 4
  wValid : Bool
  bReady : Bool
  arAddr : BitVec 12
  arValid : Bool
  rReady : Bool
  coeffHwAddress0 : BitVec 9
  coeffHwCe0 : Bool

/-- The outputs of one cycle, but for the constant responses. -/
structure ControlOut where
  awReady : Bool
  wReady : Bool
  bValid : Bool
  arReady : Bool
  rData : BitVec 32
  rValid : Bool

namespace ControlSAxi

def awReady (s : ControlSAxi) : Bool := s.wstate == .wrIdle

def arReady (s : ControlSAxi) : Bool := s.rstate == .rdIdle

def awHs (s : ControlSAxi) (i : ControlIn) : Bool := i.awValid && s.awReady

def arHs (s : ControlSAxi) (i : ControlIn) : Bool := i.arValid && s.arReady

def wReady (s : ControlSAxi) (i : ControlIn) : Bool := s.wstate == .wrData && !s.arHs i

def wHs (s : ControlSAxi) (i : ControlIn) : Bool := i.wValid && s.wReady i

def bValid (s : ControlSAxi) : Bool := s.wstate == .wrResp

def bHs (s : ControlSAxi) (i : ControlIn) : Bool := i.bReady && s.bValid

def rValid (s : ControlSAxi) : Bool := s.rstate == .rdData && !s.intCoeffHwRead

def rHs (s : ControlSAxi) (i : ControlIn) : Bool := i.rReady && s.rValid

/-- `wnext`. -/
def wnext (s : ControlSAxi) (i : ControlIn) : WState :=
  match s.wstate with
  | .wrIdle => if i.awValid then .wrData else .wrIdle
  | .wrData => if s.wHs i then .wrResp else .wrData
  | .wrResp => if s.bHs i then .wrIdle else .wrResp
  | .wrReset => .wrIdle

/-- `rnext`. -/
def rnext (s : ControlSAxi) (i : ControlIn) : RState :=
  match s.rstate with
  | .rdIdle => if i.arValid then .rdData else .rdIdle
  | .rdData => if s.rHs i then .rdIdle else .rdData
  | .rdReset => .rdIdle

/-- An address in the range of the coefficient memory. -/
def inCoeffHw (addr : BitVec 12) : Bool := decide (addrCoeffHwBase ≤ addr) && decide (addr ≤ addrCoeffHwHigh)

/-- The registers as `case (raddr)` reads them. -/
def readRegs (s : ControlSAxi) (raddr : BitVec 12) : BitVec 32 :=
  if raddr = addrTlastDnumData0 then s.intTlastDnum.setWidth 32
  else if raddr = addrSmplRdNumData0 then s.intSmplRdNum.setWidth 32
  else if raddr = addrTapNumM1Data0 then s.intTapNumM1.setWidth 32
  else 0

/-- A register at `addr`, at a clock edge. -/
def nextReg {w : ℕ} (s : ControlSAxi) (i : ControlIn) (addr : BitVec 12) (reg : BitVec w) : BitVec w :=
  if i.aReset then 0
  else if s.wHs i && s.waddr == addr then writeReg reg i.wData i.wStrb
  else reg

/-- `int_coeff_hw_address1`. -/
def address1 (s : ControlSAxi) (i : ControlIn) : BitVec 9 :=
  if s.arHs i then coeffWord i.arAddr else coeffWord s.waddr

/-- `int_coeff_hw_ce1`. -/
def ce1 (s : ControlSAxi) (i : ControlIn) : Bool := s.arHs i || (s.intCoeffHwWrite && i.wValid)

/-- `int_coeff_hw_be1`. -/
def be1 (s : ControlSAxi) (i : ControlIn) : BitVec 4 :=
  if s.intCoeffHwWrite && s.wHs i then i.wStrb else 0

/-- What the slave drives on the bus. -/
def out (s : ControlSAxi) (i : ControlIn) : ControlOut where
  awReady := s.awReady
  wReady := s.wReady i
  bValid := s.bValid
  arReady := s.arReady
  rData := s.rdata
  rValid := s.rValid

/-- One clock edge. -/
def step (s : ControlSAxi) (i : ControlIn) : ControlSAxi × ControlOut :=
  ({ wstate := if i.aReset then .wrReset else s.wnext i
     waddr := if s.awHs i then aligned i.awAddr else s.waddr
     rstate := if i.aReset then .rdReset else s.rnext i
     rdata :=
      if s.arHs i then s.readRegs i.arAddr
      else if s.intCoeffHwRead then s.q1
      else s.rdata
     intTlastDnum := s.nextReg i addrTlastDnumData0 s.intTlastDnum
     intSmplRdNum := s.nextReg i addrSmplRdNumData0 s.intSmplRdNum
     intTapNumM1 := s.nextReg i addrTapNumM1Data0 s.intTapNumM1
     intCoeffHwRead := if i.aReset then false else s.arHs i && inCoeffHw i.arAddr
     intCoeffHwWrite :=
      if i.aReset then false
      else if s.awHs i && inCoeffHw i.awAddr then true
      else if s.wHs i then false
      else s.intCoeffHwWrite
     -- the two ports of the memory, both reading the words of before the edge
     mem :=
      if s.ce1 i then
        Function.update s.mem (s.address1 i)
          (ByteLanes.writeBytes (s.be1 i) i.wData (s.mem (s.address1 i)))
      else s.mem
     q0 := if i.coeffHwCe0 then s.mem i.coeffHwAddress0 else s.q0
     q1 := if s.ce1 i then s.mem (s.address1 i) else s.q1 }, s.out i)

/-! ### What the masters see, and when an access takes effect -/

/-- The address handed over in a cycle. -/
def awObs (s : ControlSAxi) (i : ControlIn) : List (BitVec 12) := if s.awHs i then [i.awAddr] else []

/-- The data and strobes handed over in a cycle. -/
def wObs (s : ControlSAxi) (i : ControlIn) : List (BitVec 32 × BitVec 4) :=
  if s.wHs i then [(i.wData, i.wStrb)] else []

/-- The response handed over in a cycle. -/
def bObs (s : ControlSAxi) (i : ControlIn) : List Unit := if s.bHs i then [()] else []

/-- The read address handed over in a cycle. -/
def arObs (s : ControlSAxi) (i : ControlIn) : List (BitVec 12) := if s.arHs i then [i.arAddr] else []

/-- The word handed over in a cycle. -/
def rObs (s : ControlSAxi) (i : ControlIn) : List (BitVec 32) := if s.rHs i then [s.rdata] else []

/-- The access that takes effect in a cycle: a read with its `AR` handshake, a write with its `W`
handshake. -/
def commit (s : ControlSAxi) (i : ControlIn) : List Access :=
  if s.arHs i then [.read i.arAddr] else if s.wHs i then [.write s.waddr i.wData i.wStrb] else []

/-- What the slave stores. -/
def registerFile (s : ControlSAxi) : RegisterFile where
  tlastDnum := s.intTlastDnum
  smplRdNum := s.intSmplRdNum
  tapNumM1 := s.intTapNumM1
  coeffHw := s.mem

/-- The word of a read that has taken effect and is not yet handed over. -/
def pendingRead (s : ControlSAxi) : List (BitVec 32) :=
  if s.rstate = .rdData then [if s.intCoeffHwRead then s.q1 else s.rdata] else []

/-- The address of a write that has not taken effect yet. -/
def pendingWrite (s : ControlSAxi) : List (BitVec 12) := if s.wstate = .wrData then [s.waddr] else []

/-- The write flag says whether the write under way is for the memory. -/
structure WriteFlag (s : ControlSAxi) : Prop where
  flag : s.intCoeffHwWrite = (decide (s.wstate = .wrData) && decide (addrCoeffHwBase ≤ s.waddr))
  word : s.wstate = .wrData → aligned s.waddr = s.waddr

/-! ### Steps -/

theorem toNat_aligned (addr : BitVec 12) : (aligned addr).toNat = addr.toNat / 4 * 4 := by
  have hlt := addr.isLt
  rw [aligned, BitVec.toNat_append, BitVec.extractLsb'_toNat, Nat.shiftRight_eq_div_pow,
    Nat.mod_eq_of_lt (by omega), Nat.shiftLeft_eq]
  exact Nat.or_zero _

theorem aligned_aligned (addr : BitVec 12) : aligned (aligned addr) = aligned addr := by
  apply BitVec.eq_of_toNat_eq
  rw [toNat_aligned, toNat_aligned]
  omega

theorem base_le_aligned (addr : BitVec 12) : addrCoeffHwBase ≤ aligned addr ↔ addrCoeffHwBase ≤ addr := by
  rw [BitVec.le_def, BitVec.le_def, toNat_aligned]
  show 0x800 ≤ addr.toNat / 4 * 4 ↔ 0x800 ≤ addr.toNat
  omega

theorem inCoeffHw_eq (addr : BitVec 12) : inCoeffHw addr = decide (addrCoeffHwBase ≤ addr) := by
  have hhigh : addr ≤ addrCoeffHwHigh := by
    rw [BitVec.le_def]
    exact Nat.le_of_lt_succ addr.isLt
  rw [inCoeffHw, decide_eq_true hhigh, Bool.and_true]

theorem wHs_of_arHs {s : ControlSAxi} {i : ControlIn} (h : s.arHs i = true) : s.wHs i = false := by
  simp [wHs, wReady, h]

theorem arHs_iff {s : ControlSAxi} {i : ControlIn} :
    s.arHs i = true ↔ i.arValid = true ∧ s.rstate = .rdIdle := by
  simp [arHs, arReady]

theorem awHs_iff {s : ControlSAxi} {i : ControlIn} :
    s.awHs i = true ↔ i.awValid = true ∧ s.wstate = .wrIdle := by
  simp [awHs, awReady]

theorem wHs_iff {s : ControlSAxi} {i : ControlIn} :
    s.wHs i = true ↔ i.wValid = true ∧ s.wstate = .wrData ∧ s.arHs i = false := by
  simp [wHs, wReady]

theorem bHs_iff {s : ControlSAxi} {i : ControlIn} :
    s.bHs i = true ↔ i.bReady = true ∧ s.wstate = .wrResp := by
  simp [bHs, bValid]

theorem rHs_iff {s : ControlSAxi} {i : ControlIn} :
    s.rHs i = true ↔ i.rReady = true ∧ s.rstate = .rdData ∧ s.intCoeffHwRead = false := by
  simp [rHs, rValid]

theorem wnext_eq_wrData {s : ControlSAxi} {i : ControlIn} :
    s.wnext i = .wrData ↔ s.awHs i = true ∨ s.wstate = .wrData ∧ s.wHs i = false := by
  cases hw : s.wstate <;> simp [wnext, awHs, awReady, hw]
  split_ifs <;> simp

theorem wnext_eq_wrResp {s : ControlSAxi} {i : ControlIn} :
    s.wnext i = .wrResp ↔ s.wHs i = true ∨ s.wstate = .wrResp ∧ s.bHs i = false := by
  cases hw : s.wstate <;> simp [wnext, wHs, wReady, hw]
  split_ifs <;> simp

theorem rnext_eq_rdData {s : ControlSAxi} {i : ControlIn} :
    s.rnext i = .rdData ↔ s.arHs i = true ∨ s.rstate = .rdData ∧ s.rHs i = false := by
  cases hr : s.rstate <;> simp [rnext, arHs, arReady, hr]

theorem writeFlag_step {s : ControlSAxi} (hs : WriteFlag s) {i : ControlIn} (hrst : i.aReset = false) :
    WriteFlag (s.step i).1 := by
  have hflag := hs.flag
  have hwstate : (s.step i).1.wstate = s.wnext i := by simp [step, hrst]
  by_cases haw : s.awHs i = true
  · -- the address is latched: the flag was clear and is set for the memory
    have hidle := (awHs_iff.mp haw).2
    have hw : s.wHs i = false := by simp [wHs, wReady, hidle]
    have hnext := wnext_eq_wrData.mpr (.inl haw)
    refine ⟨?_, fun _ => by simp [step, haw, aligned_aligned]⟩
    rw [hwstate, hnext]
    simp [step, hrst, haw, hw, hflag, hidle, inCoeffHw_eq, base_le_aligned]
  · -- the address stays: the flag is cleared when the write takes effect
    have hwaddr : (s.step i).1.waddr = s.waddr := by simp [step, haw]
    have hflag' : (s.step i).1.intCoeffHwWrite = if s.wHs i then false else s.intCoeffHwWrite := by
      simp [step, hrst, haw]
    have hdata : s.wnext i = .wrData ↔ s.wstate = .wrData ∧ s.wHs i = false := by
      simp [wnext_eq_wrData, haw]
    refine ⟨?_, fun h => ?_⟩
    · rw [hwstate, hwaddr, hflag', hflag]
      by_cases hw : s.wHs i = true <;> simp [hdata, hw]
    · rw [hwstate] at h
      rw [hwaddr]
      exact hs.word (hdata.mp h).1

theorem registerFile_step_of_not_wHs {s : ControlSAxi} {i : ControlIn} (hrst : i.aReset = false)
    (hw : s.wHs i = false) : (s.step i).1.registerFile = s.registerFile := by
  have hmem : (s.step i).1.mem = s.mem := by
    simp [step, be1, hw, ByteLanes.writeBytes_eq_merge, ByteLanes.wmask_zero]
  simp [registerFile, hmem]
  simp [step, nextReg, hrst, hw]

theorem registerFile_step_of_wHs {s : ControlSAxi} (hs : WriteFlag s) {i : ControlIn}
    (hrst : i.aReset = false) (hw : s.wHs i = true) :
    (s.step i).1.registerFile = s.registerFile.write s.waddr i.wData i.wStrb := by
  obtain ⟨hvalid, hdata, har⟩ := wHs_iff.mp hw
  have hflag : s.intCoeffHwWrite = decide (addrCoeffHwBase ≤ s.waddr) := by simp [hs.flag, hdata]
  rw [RegisterFile.write, hs.word hdata]
  by_cases hbase : addrCoeffHwBase ≤ s.waddr
  · have hne : ∀ addr : BitVec 12, addr < addrCoeffHwBase → s.waddr ≠ addr := by
      rintro addr hlt rfl
      exact absurd hbase (BitVec.not_le.mpr hlt)
    have h1 := hne addrTlastDnumData0 (by decide)
    have h2 := hne addrSmplRdNumData0 (by decide)
    have h3 := hne addrTapNumM1Data0 (by decide)
    simp [step, registerFile, nextReg, ce1, be1, address1, hrst, hw, har, hvalid, hflag, hbase, h1, h2, h3]
  · have hmem : (s.step i).1.mem = s.mem := by simp [step, ce1, har, hflag, hbase]
    have h12 : addrTlastDnumData0 ≠ addrSmplRdNumData0 := by decide
    have h13 : addrTlastDnumData0 ≠ addrTapNumM1Data0 := by decide
    have h23 : addrSmplRdNumData0 ≠ addrTapNumM1Data0 := by decide
    rw [if_neg hbase, registerFile, hmem]
    by_cases h1 : s.waddr = addrTlastDnumData0
    · simp [step, registerFile, nextReg, hrst, hw, h1, h12, h13]
    by_cases h2 : s.waddr = addrSmplRdNumData0
    · simp [step, registerFile, nextReg, hrst, hw, h2, h12.symm, h23]
    by_cases h3 : s.waddr = addrTapNumM1Data0
    · simp [step, registerFile, nextReg, hrst, hw, h3, h13.symm, h23.symm]
    · simp [step, registerFile, nextReg, hrst, hw, h1, h2, h3]

/-- **What a cycle stores** is what its access stores. -/
theorem registerFile_step {s : ControlSAxi} (hs : WriteFlag s) {i : ControlIn} (hrst : i.aReset = false) :
    (s.step i).1.registerFile = Mealy.runState RegisterFile.access s.registerFile (s.commit i) := by
  by_cases har : s.arHs i = true
  · rw [registerFile_step_of_not_wHs hrst (wHs_of_arHs har)]
    simp [commit, har, RegisterFile.access]
  · by_cases hw : s.wHs i = true
    · rw [registerFile_step_of_wHs hs hrst hw]
      simp [commit, har, hw, RegisterFile.access]
    · rw [registerFile_step_of_not_wHs hrst (by simpa using hw)]
      simp [commit, har, hw]

theorem read_of_not_arHs {s : ControlSAxi} {i : ControlIn} (har : ¬ s.arHs i = true) (f : RegisterFile) :
    f.reads (s.commit i) = [] := by
  by_cases hw : s.wHs i = true <;>
    simp [commit, har, hw, RegisterFile.reads, RegisterFile.access]

/-- **What a cycle reads**: the word of its access joins the words due, and the word handed over leaves
them. -/
theorem pendingRead_step {s : ControlSAxi} {i : ControlIn} (hrst : i.aReset = false) :
    s.pendingRead ++ s.registerFile.reads (s.commit i) = s.rObs i ++ (s.step i).1.pendingRead := by
  have hrstate : (s.step i).1.rstate = s.rnext i := by simp [step, hrst]
  by_cases har : s.arHs i = true
  · have hidle := (arHs_iff.mp har).2
    have hnext : s.rnext i = .rdData := rnext_eq_rdData.mpr (.inl har)
    have hr : s.rHs i = false := by simp [rHs, rValid, hidle]
    have hread : s.registerFile.reads (s.commit i) = [s.registerFile.read i.arAddr] := by
      simp [commit, har, RegisterFile.reads, RegisterFile.access]
    have hword : s.registerFile.read i.arAddr =
        if (s.step i).1.intCoeffHwRead then (s.step i).1.q1 else (s.step i).1.rdata := by
      simp [RegisterFile.read, registerFile, step, hrst, har, inCoeffHw_eq, ce1, address1, readRegs]
    rw [hread, hword]
    simp [pendingRead, rObs, hr, hrstate, hnext, hidle]
  · rw [read_of_not_arHs har, List.append_nil]
    have hread : (s.step i).1.intCoeffHwRead = false := by simp [step, hrst, har]
    have hrdata : (s.step i).1.rdata = if s.intCoeffHwRead then s.q1 else s.rdata := by simp [step, har]
    have hdata : s.rnext i = .rdData ↔ s.rstate = .rdData ∧ s.rHs i = false := by
      simp [rnext_eq_rdData, har]
    by_cases hr : s.rHs i = true
    · obtain ⟨_, hstate, hlow⟩ := rHs_iff.mp hr
      simp [pendingRead, rObs, hr, hrstate, hdata, hstate, hlow]
    · simp [pendingRead, rObs, hr, hrstate, hdata, hread, hrdata]

/-- **Addresses in order**: the address handed over joins the writes under way, and the write that takes
effect leaves them. -/
theorem pendingWrite_step {s : ControlSAxi} {i : ControlIn} (hrst : i.aReset = false) :
    s.pendingWrite ++ (s.awObs i).map aligned =
      (s.commit i).filterMap Access.writeAddr ++ (s.step i).1.pendingWrite := by
  have hwstate : (s.step i).1.wstate = s.wnext i := by simp [step, hrst]
  by_cases haw : s.awHs i = true
  · have hidle := (awHs_iff.mp haw).2
    have hw : s.wHs i = false := by simp [wHs, wReady, hidle]
    have hnext := wnext_eq_wrData.mpr (.inl haw)
    have hwaddr : (s.step i).1.waddr = aligned i.awAddr := by simp [step, haw]
    by_cases har : s.arHs i = true <;>
      simp [pendingWrite, awObs, commit, haw, har, hw, hwstate, hnext, hidle, hwaddr, Access.writeAddr]
  · have hwaddr : (s.step i).1.waddr = s.waddr := by simp [step, haw]
    have hdata : s.wnext i = .wrData ↔ s.wstate = .wrData ∧ s.wHs i = false := by
      simp [wnext_eq_wrData, haw]
    by_cases hw : s.wHs i = true
    · obtain ⟨_, hstate, har⟩ := wHs_iff.mp hw
      simp [pendingWrite, awObs, commit, haw, har, hw, hwstate, hdata, hstate, Access.writeAddr]
    · by_cases har : s.arHs i = true <;>
        simp [pendingWrite, awObs, commit, haw, har, hw, hwstate, hdata, hwaddr, Access.writeAddr]

theorem readAddr_commit (s : ControlSAxi) (i : ControlIn) :
    (s.commit i).filterMap Access.readAddr = s.arObs i := by
  unfold commit arObs
  split_ifs <;> rfl

theorem writeData_commit (s : ControlSAxi) (i : ControlIn) :
    (s.commit i).filterMap Access.writeData = s.wObs i := by
  by_cases har : s.arHs i = true
  · simp [commit, wObs, har, wHs_of_arHs har, Access.writeData]
  · by_cases hw : s.wHs i = true <;> simp [commit, wObs, har, hw, Access.writeData]

theorem responses_step {s : ControlSAxi} {i : ControlIn} (hrst : i.aReset = false) :
    (if s.wstate = .wrResp then 1 else 0) + (s.wObs i).length =
      (s.bObs i).length + if (s.step i).1.wstate = .wrResp then 1 else 0 := by
  have hwstate : (s.step i).1.wstate = s.wnext i := by simp [step, hrst]
  rw [hwstate]
  by_cases hw : s.wHs i = true
  · have hstate := (wHs_iff.mp hw).2.1
    have hnext := wnext_eq_wrResp.mpr (.inl hw)
    simp [wObs, bObs, bHs, bValid, hw, hstate, hnext]
  · have hresp : s.wnext i = .wrResp ↔ s.wstate = .wrResp ∧ s.bHs i = false := by
      simp [wnext_eq_wrResp, hw]
    by_cases hb : s.bHs i = true
    · simp [wObs, bObs, hw, hb, hresp, (bHs_iff.mp hb).2]
    · simp [wObs, bObs, hw, hb, hresp]

/-! ### Runs -/

/-- What a run of the slave has done to the register file `f` by the state `s`, given what the masters saw:
the accesses `log`, taken one at a time. -/
structure Linearized (f : RegisterFile) (log : List Access) (s : ControlSAxi) (aws : List (BitVec 12))
    (ws : List (BitVec 32 × BitVec 4)) (bs : List Unit) (ars : List (BitVec 12)) (rs : List (BitVec 32)) :
    Prop where
  stored : s.registerFile = Mealy.runState RegisterFile.access f log
  read : f.reads log = rs ++ s.pendingRead
  readAddrs : log.filterMap Access.readAddr = ars
  writeAddrs : aws.map aligned = log.filterMap Access.writeAddr ++ s.pendingWrite
  writeData : log.filterMap Access.writeData = ws
  responses : ws.length = bs.length + if s.wstate = .wrResp then 1 else 0

theorem RegisterFile.reads_append (f : RegisterFile) (log ops : List Access) :
    f.reads (log ++ ops) = f.reads log ++ (Mealy.runState RegisterFile.access f log).reads ops := by
  simp [RegisterFile.reads, Mealy.outputs_append, List.filterMap_append]

theorem Linearized.step {f : RegisterFile} {log : List Access} {s : ControlSAxi} {aws : List (BitVec 12)}
    {ws : List (BitVec 32 × BitVec 4)} {bs : List Unit} {ars : List (BitVec 12)} {rs : List (BitVec 32)}
    (h : Linearized f log s aws ws bs ars rs) (hs : WriteFlag s) {i : ControlIn} (hrst : i.aReset = false) :
    Linearized f (log ++ s.commit i) (s.step i).1 (aws ++ s.awObs i) (ws ++ s.wObs i) (bs ++ s.bObs i)
      (ars ++ s.arObs i) (rs ++ s.rObs i) where
  stored := by rw [registerFile_step hs hrst, h.stored, Mealy.runState_append]
  read := by
    rw [RegisterFile.reads_append, h.read, ← h.stored, List.append_assoc, pendingRead_step hrst,
      List.append_assoc]
  readAddrs := by rw [List.filterMap_append, h.readAddrs, readAddr_commit]
  writeAddrs := by
    rw [List.map_append, h.writeAddrs, List.append_assoc, pendingWrite_step hrst, List.filterMap_append,
      List.append_assoc]
  writeData := by rw [List.filterMap_append, h.writeData, writeData_commit]
  responses := by
    have hstep := responses_step (s := s) hrst
    have hdue := h.responses
    rw [List.length_append, List.length_append]
    omega

/-- What a reset leaves. -/
structure AfterReset (s : ControlSAxi) : Prop where
  wstate : s.wstate = .wrReset
  rstate : s.rstate = .rdReset
  flag : s.intCoeffHwWrite = false

theorem afterReset_step (s : ControlSAxi) {i : ControlIn} (h : i.aReset = true) :
    AfterReset (s.step i).1 := by
  constructor <;> simp [step, h]

theorem AfterReset.writeFlag {s : ControlSAxi} (h : AfterReset s) : WriteFlag s :=
  ⟨by simp [h.flag, h.wstate], fun hdata => by simp [h.wstate] at hdata⟩

theorem AfterReset.linearized {s : ControlSAxi} (h : AfterReset s) :
    Linearized s.registerFile [] s [] [] [] [] [] := by
  constructor <;> simp [pendingRead, pendingWrite, h.wstate, h.rstate, RegisterFile.reads]

theorem writeFlag_run {s : ControlSAxi} (hs : WriteFlag s) {is : List ControlIn}
    (his : ∀ i ∈ is, i.aReset = false) : WriteFlag (Mealy.runState step s is) :=
  Mealy.invariant_run step (I := WriteFlag) (fun _ _ h hi => writeFlag_step h hi) hs his

/-- **The slave is linearizable.** From a reset on, whatever registers it met and whatever the masters do
on the five channels, the registers, the coefficient memory and every word read are those of the accesses
that took effect, one at a time in the order of their `W` and `AR` handshakes. The reads are those asked
for, in order; the writes are the addresses and the data handed over, paired in order; every write is
answered once. -/
theorem control_linearizable (s : ControlSAxi) {r : ControlIn} (hr : r.aReset = true)
    {is : List ControlIn} (his : ∀ i ∈ is, i.aReset = false) :
    Linearized (s.step r).1.registerFile (Mealy.collect step commit (s.step r).1 is)
      (Mealy.runState step (s.step r).1 is) (Mealy.collect step awObs (s.step r).1 is)
      (Mealy.collect step wObs (s.step r).1 is) (Mealy.collect step bObs (s.step r).1 is)
      (Mealy.collect step arObs (s.step r).1 is) (Mealy.collect step rObs (s.step r).1 is) := by
  have hreset := afterReset_step s hr
  generalize (s.step r).1 = s₀ at hreset ⊢
  induction is using List.reverseRecOn with
  | nil => exact hreset.linearized
  | append_singleton is i ih =>
    have hpre : ∀ j ∈ is, j.aReset = false := fun j hj => his j (List.mem_append_left _ hj)
    have hflag := writeFlag_run hreset.writeFlag hpre
    simp only [Mealy.collect_concat, Mealy.runState_concat]
    exact (ih hpre).step hflag (his i (by simp))

/-- The registers at power-on, with an empty memory. -/
def initial : ControlSAxi where
  wstate := .wrReset
  waddr := 0
  rstate := .rdReset
  rdata := 0
  intTlastDnum := 0
  intSmplRdNum := 0
  intTapNumM1 := 0
  intCoeffHwRead := false
  intCoeffHwWrite := false
  mem := fun _ => 0
  q0 := 0
  q1 := 0

/-- A cycle in which a master keeps all five channels busy. -/
def busyCycle (aReset : Bool) (addr : BitVec 12) (data : BitVec 32) : ControlIn where
  aReset := aReset
  awAddr := addr
  awValid := true
  wData := data
  wStrb := -1
  wValid := true
  bReady := true
  arAddr := addr
  arValid := true
  rReady := true
  coeffHwAddress0 := 0
  coeffHwCe0 := false

/-- Twelve busy cycles at `tlast_dnum`. -/
def busyRun : List ControlIn := List.replicate 12 (busyCycle false addrTlastDnumData0 48)

theorem control_linearizable_busy :
    Linearized (initial.step (busyCycle true 0 0)).1.registerFile
      (Mealy.collect step commit (initial.step (busyCycle true 0 0)).1 busyRun)
      (Mealy.runState step (initial.step (busyCycle true 0 0)).1 busyRun)
      (Mealy.collect step awObs (initial.step (busyCycle true 0 0)).1 busyRun)
      (Mealy.collect step wObs (initial.step (busyCycle true 0 0)).1 busyRun)
      (Mealy.collect step bObs (initial.step (busyCycle true 0 0)).1 busyRun)
      (Mealy.collect step arObs (initial.step (busyCycle true 0 0)).1 busyRun)
      (Mealy.collect step rObs (initial.step (busyCycle true 0 0)).1 busyRun) :=
  control_linearizable initial rfl (by simp [busyRun, busyCycle])

/-! ### Neither channel holds up the other -/

/-- The most cycles until a write response is handed over, to a master that is always ready. -/
def writeCycles (s : ControlSAxi) : ℕ :=
  match s.wstate with
  | .wrReset => 5
  | .wrIdle => 4
  -- the memory port goes to a read for one cycle at most
  | .wrData => if s.rstate = .rdIdle then 3 else 2
  | .wrResp => 1

/-- The most cycles until a word is handed over, to a master that is always ready. -/
def readCycles (s : ControlSAxi) : ℕ :=
  match s.rstate with
  | .rdReset => 4
  | .rdIdle => 3
  | .rdData => if s.intCoeffHwRead then 2 else 1

theorem writeCycles_of_wrData {s : ControlSAxi} (h : s.wstate = .wrData) :
    writeCycles s = if s.rstate = .rdIdle then 3 else 2 := by
  simp [writeCycles, h]

theorem readCycles_of_rdData {s : ControlSAxi} (h : s.rstate = .rdData) :
    readCycles s = if s.intCoeffHwRead then 2 else 1 := by
  simp [readCycles, h]

theorem writeCycles_bounds (s : ControlSAxi) : 0 < writeCycles s ∧ writeCycles s ≤ 5 := by
  unfold writeCycles
  grind

theorem readCycles_bounds (s : ControlSAxi) : 0 < readCycles s ∧ readCycles s ≤ 4 := by
  unfold readCycles
  grind

theorem writeCycles_step (s : ControlSAxi) (i : ControlIn)
    (hi : i.aReset = false ∧ i.awValid = true ∧ i.wValid = true ∧ i.bReady = true) :
    writeCycles (s.step i).1 + 1 ≤ writeCycles s + 4 * (s.bObs i).length := by
  obtain ⟨hrst, haw, hw, hb⟩ := hi
  have hwstate : (s.step i).1.wstate = s.wnext i := by simp [step, hrst]
  have hrstate : (s.step i).1.rstate = s.rnext i := by simp [step, hrst]
  cases hs : s.wstate with
  | wrReset => simp [writeCycles, hwstate, wnext, hs]
  | wrIdle =>
    have hnext : s.wnext i = .wrData := by simp [wnext, hs, haw]
    have hfour : writeCycles s = 4 := by simp [writeCycles, hs]
    rw [writeCycles_of_wrData (hwstate.trans hnext), hfour]
    split_ifs <;> omega
  | wrData =>
    by_cases har : s.arHs i = true
    · -- the port goes to the read, which keeps the read channel busy in the next cycle
      have hidle := (arHs_iff.mp har).2
      have hrd : s.rnext i = .rdData := rnext_eq_rdData.mpr (.inl har)
      simp [writeCycles, hwstate, hrstate, wnext, hs, wHs_of_arHs har, hidle, hrd]
    · have hhs : s.wHs i = true := wHs_iff.mpr ⟨hw, hs, by simpa using har⟩
      have hnext : s.wnext i = .wrResp := wnext_eq_wrResp.mpr (.inl hhs)
      have hone : writeCycles (s.step i).1 = 1 := by simp [writeCycles, hwstate, hnext]
      rw [writeCycles_of_wrData hs, hone]
      split_ifs <;> omega
  | wrResp =>
    have hhs : s.bHs i = true := bHs_iff.mpr ⟨hb, hs⟩
    simp [writeCycles, hwstate, wnext, hs, bObs, hhs]

theorem readCycles_step (s : ControlSAxi) (i : ControlIn)
    (hi : i.aReset = false ∧ i.arValid = true ∧ i.rReady = true) :
    readCycles (s.step i).1 + 1 ≤ readCycles s + 3 * (s.rObs i).length := by
  obtain ⟨hrst, har, hr⟩ := hi
  have hrstate : (s.step i).1.rstate = s.rnext i := by simp [step, hrst]
  cases hs : s.rstate with
  | rdReset => simp [readCycles, hrstate, rnext, hs]
  | rdIdle =>
    have hnext : s.rnext i = .rdData := by simp [rnext, hs, har]
    have hthree : readCycles s = 3 := by simp [readCycles, hs]
    rw [readCycles_of_rdData (hrstate.trans hnext), hthree]
    split_ifs <;> omega
  | rdData =>
    have har' : s.arHs i = false := by simp [arHs, arReady, hs]
    by_cases hread : s.intCoeffHwRead = true
    · -- the word leaves the memory in this cycle and is offered in the next one
      have hhs : s.rHs i = false := by simp [rHs, rValid, hread]
      have hnext : (s.step i).1.intCoeffHwRead = false := by simp [step, hrst, har']
      simp [readCycles, hrstate, rnext, hs, hhs, hread, hnext]
    · have hhs : s.rHs i = true := rHs_iff.mpr ⟨hr, hs, by simpa using hread⟩
      simp [readCycles, hrstate, rnext, hs, hhs, hread, rObs]

/-- **Neither channel holds up the other.** In whatever state a window of cycles begins, a master that keeps
its write channels busy through it has a write answered every four cycles whatever is read meanwhile, and one
that keeps its read channels busy gets a word every three cycles whatever is written meanwhile. -/
theorem control_throughput (s : ControlSAxi) {is : List ControlIn} (his : ∀ i ∈ is, i.aReset = false) :
    ((∀ i ∈ is, i.awValid = true ∧ i.wValid = true ∧ i.bReady = true) →
      is.length ≤ 4 * (Mealy.collect step bObs s is).length + 4) ∧
    ((∀ i ∈ is, i.arValid = true ∧ i.rReady = true) →
      is.length ≤ 3 * (Mealy.collect step rObs s is).length + 3) := by
  refine ⟨?_, ?_⟩
  · intro hbusy
    have hrun := Mealy.length_le_of_potential step (fun s i => 4 * (s.bObs i).length) writeCycles
      (I := fun _ => True)
      (P := fun i => i.aReset = false ∧ i.awValid = true ∧ i.wValid = true ∧ i.bReady = true)
      (fun _ _ _ _ => trivial) (fun s i _ hi => writeCycles_step s i hi) (s := s) trivial
      fun i hi => ⟨his i hi, hbusy i hi⟩
    rw [Mealy.total_mul_length] at hrun
    have hfirst := writeCycles_bounds s
    have hlast := writeCycles_bounds (Mealy.runState step s is)
    omega
  · intro hbusy
    have hrun := Mealy.length_le_of_potential step (fun s i => 3 * (s.rObs i).length) readCycles
      (I := fun _ => True) (P := fun i => i.aReset = false ∧ i.arValid = true ∧ i.rReady = true)
      (fun _ _ _ _ => trivial) (fun s i _ hi => readCycles_step s i hi) (s := s) trivial
      fun i hi => ⟨his i hi, hbusy i hi⟩
    rw [Mealy.total_mul_length] at hrun
    have hfirst := readCycles_bounds s
    have hlast := readCycles_bounds (Mealy.runState step s is)
    omega

/-- A cycle in which the master leaves all channels alone. -/
def idleCycle : ControlIn :=
  { busyCycle false 0 0 with awValid := false, wValid := false, bReady := false, arValid := false, rReady := false }

/-- Twelve busy cycles after two idle ones. -/
theorem control_throughput_busy :
    12 ≤ 4 * (Mealy.collect step bObs (Mealy.runState step initial [idleCycle, idleCycle]) busyRun).length + 4 ∧
      12 ≤ 3 * (Mealy.collect step rObs (Mealy.runState step initial [idleCycle, idleCycle]) busyRun).length +
        3 := by
  obtain ⟨hwrites, hreads⟩ := control_throughput (Mealy.runState step initial [idleCycle, idleCycle])
    (show ∀ i ∈ busyRun, i.aReset = false by simp [busyRun, busyCycle])
  exact ⟨hwrites (by simp [busyRun, busyCycle]), hreads (by simp [busyRun, busyCycle])⟩

end ControlSAxi

end FpgaLabor
