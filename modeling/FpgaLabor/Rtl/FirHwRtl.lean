import FpgaLabor.Rtl.ControlSAxi
import FpgaLabor.Rtl.FirPipeline
import FpgaLabor.Rtl.StreamPort

/-!
# The generated core `fir_hw.v`

The state machine that synthesis made of `fir_hw`, with its buffers, its loop pipeline, its stream port and
its register file; `step` is one clock edge of all of them. A call is spread over six states: state 1 takes
a pair of samples and the register arguments, state 3 runs the loop, states 4 and 5 hand the two words to
the stream port, and state 6 waits until they have left it.

`event` is what an observer of the core writes down in a cycle. A call begins with the samples and registers
of the cycle in which the core takes them, and each of its coefficients becomes the one that is in the memory
in the cycle in which its tap reads it.
-/

namespace FpgaLabor

open BoundedFifo (Ports)

/-- `ap_CS_fsm`. -/
inductive FirFsm
  | state1
  | state2
  | state3
  | state4
  | state5
  | state6
deriving DecidableEq, Repr

/-- `buffer_left_RAM_AUTO_1R1W`. -/
structure BufferRam where
  ram : BitVec 9 → BitVec 24
  q0 : BitVec 24

/-- One clock edge of a buffer, which reads the word of before a write. -/
def BufferRam.step (m : BufferRam) (address0 : BitVec 9) (ce0 we0 : Bool) (d0 : BitVec 24) : BufferRam where
  ram := if ce0 && we0 then Function.update m.ram address0 d0 else m.ram
  q0 := if ce0 then m.ram address0 else m.q0

/-- The words of a buffer, as samples. -/
def BufferRam.samples (m : BufferRam) : BitVec 9 → DinT := fun k => ⟨m.ram k⟩

/-- The registers of the module and of the modules in it. -/
structure FirHwRtl where
  apCsFsm : FirFsm
  writeIdx : BitVec 9
  decCnt : BitVec 3
  cnt : BitVec 16
  icmpLn26Reg : Bool
  tapNumM1ReadReg : BitVec 9
  outDataLastReg : Bool
  outDataLast1Reg : Bool
  addLn32Reg : BitVec 10
  decCntNew0Reg : BitVec 3
  apStartReg : Bool
  bufferLeft : BufferRam
  bufferRight : BufferRam
  loop : FirPipeline
  res : AxisSlices
  control : ControlSAxi

/-- The inputs of one cycle, and what an undefined multiplexer carries in it. Of `bus`, the five channels
count: its reset and its memory port are driven inside the core. -/
structure FirCycle where
  apRstN : Bool
  inputL : BitVec 24
  inputLApVld : Bool
  inputR : BitVec 24
  inputRApVld : Bool
  resTready : Bool
  bus : ControlIn
  undefP0 : BitVec 47
  undefP1 : BitVec 32
  undefBeat : AxisType

/-- The outputs of one cycle. `input_l_ap_ack` and `input_r_ap_ack` are equal. -/
structure FirOut where
  inputApAck : Bool
  res : Ports AxisType
  bus : ControlOut

namespace FirHwRtl

variable (s : FirHwRtl) (i : FirCycle)

/-- `ap_block_state1`. -/
def apBlockState1 (i : FirCycle) : Bool := !i.inputRApVld || !i.inputLApVld

/-- `input_l_ap_ack`, `input_r_ap_ack` and the write enables of the buffers. -/
def accept : Bool := s.apCsFsm == .state1 && !apBlockState1 i

def addLn25 : BitVec 3 := s.decCnt + 1

def icmpLn26 : Bool := decide (s.addLn25 < s.control.intSmplRdNum)

def outDataLast : Bool := s.cnt + 1 == s.control.intTlastDnum

def selectLn54 : BitVec 16 := if s.outDataLast then 1 else s.cnt + 2

def outDataLast1 : Bool := s.selectLn54 == s.control.intTlastDnum

def selectLn60 : BitVec 16 := if s.outDataLast1 then 0 else s.selectLn54

/-- `res_TREADY_int_regslice`. -/
def resTreadyInt : Bool := s.res.data.ackInT

/-- `res_TVALID_int_regslice`. -/
def resTvalidInt : Bool := s.resTreadyInt && (s.apCsFsm == .state5 || s.apCsFsm == .state4)

/-- What the core hands to its stream port. -/
def resInt : AxisType :=
  if s.resTreadyInt && s.apCsFsm == .state5 then ⟨⟨s.loop.outDataData1⟩, -1, s.outDataLast1Reg⟩
  else if s.resTreadyInt && s.apCsFsm == .state4 then ⟨⟨s.loop.outDataData⟩, -1, s.outDataLastReg⟩
  else i.undefBeat

/-- `ap_block_state6`. -/
def apBlockState6 : Bool := s.res.data.apdoneBlk i.resTready || (!s.icmpLn26Reg && !s.resTreadyInt)

/-- The edge that ends the call. -/
def endCall : Bool := s.apCsFsm == .state6 && !s.apBlockState6 i

def loopIn : PipelineIn where
  apRst := !i.apRstN
  apStart := s.apStartReg
  addLn32 := s.addLn32Reg
  writeIdxLoad := s.writeIdx
  coeffHwQ0 := s.control.q0
  bufferLeftQ0 := s.bufferLeft.q0
  bufferRightQ0 := s.bufferRight.q0
  undefP0 := i.undefP0
  undefP1 := i.undefP1

def controlIn : ControlIn :=
  { i.bus with
    aReset := !i.apRstN
    coeffHwAddress0 := s.loop.coeffHwAddress0 (s.loopIn i)
    coeffHwCe0 := s.loop.ce0 (s.loopIn i) }

def regsliceIn : RegsliceIn AxisType where
  dataIn := s.resInt i
  vldIn := s.resTvalidInt
  ackOut := i.resTready
  apRst := !i.apRstN

/-- `ap_NS_fsm`. -/
def apNsFsm : FirFsm :=
  match s.apCsFsm with
  | .state1 => if s.accept i then (if s.icmpLn26 then .state6 else .state2) else .state1
  | .state2 => .state3
  | .state3 => if s.loop.apDone (s.loopIn i) then .state4 else .state3
  | .state4 => if s.resTreadyInt then .state5 else .state4
  | .state5 => if s.resTreadyInt then .state6 else .state5
  | .state6 => if !s.apBlockState6 i then .state1 else .state6

/-- The address, enable and write enable of the two buffers. -/
def bufferStep (m : BufferRam) (d0 : BitVec 24) : BufferRam :=
  m.step (if s.apCsFsm == .state3 then s.loop.bufferAddress0 (s.loopIn i) else s.writeIdx)
    (if s.apCsFsm == .state3 then s.loop.ce0 (s.loopIn i) else s.accept i) (s.accept i) d0

/-- One clock edge. -/
def step : FirHwRtl × FirOut :=
  ({ apCsFsm := if !i.apRstN then .state1 else s.apNsFsm i
     writeIdx := if s.endCall i then s.writeIdx + 1 else s.writeIdx
     decCnt :=
      if s.endCall i then (if !s.icmpLn26Reg then 0 else s.decCntNew0Reg) else s.decCnt
     cnt := if !s.icmpLn26 && s.accept i then s.selectLn60 else s.cnt
     icmpLn26Reg := if s.apCsFsm == .state1 then s.icmpLn26 else s.icmpLn26Reg
     tapNumM1ReadReg := if s.apCsFsm == .state1 then s.control.intTapNumM1 else s.tapNumM1ReadReg
     outDataLastReg := if s.apCsFsm == .state1 then s.outDataLast else s.outDataLastReg
     outDataLast1Reg := if s.apCsFsm == .state1 then s.outDataLast1 else s.outDataLast1Reg
     addLn32Reg := if s.apCsFsm == .state2 then s.tapNumM1ReadReg.setWidth 10 + 1 else s.addLn32Reg
     decCntNew0Reg :=
      if !s.icmpLn26Reg && s.endCall i then 0
      else if s.icmpLn26 && s.accept i then s.addLn25
      else s.decCntNew0Reg
     apStartReg :=
      if !i.apRstN then false
      else if s.apCsFsm == .state2 then true
      else if s.loop.apReady (s.loopIn i) then false
      else s.apStartReg
     bufferLeft := s.bufferStep i s.bufferLeft i.inputL
     bufferRight := s.bufferStep i s.bufferRight i.inputR
     loop := s.loop.step (s.loopIn i)
     res := (s.res.step (s.regsliceIn i)).1
     control := (s.control.step (s.controlIn i)).1 },
    { inputApAck := s.accept i
      res := s.res.ports
      bus := (s.control.step (s.controlIn i)).2 })

/-- The registers with a power-on value that the module keeps through a reset or relies on. -/
structure PowerOn : Prop where
  fsm : s.apCsFsm = .state1
  writeIdx : s.writeIdx = 0
  decCnt : s.decCnt = 0
  cnt : s.cnt = 0
  start : s.apStartReg = false
  bufferLeft : s.bufferLeft.ram = fun _ => 0
  bufferRight : s.bufferRight.ram = fun _ => 0

/-! ### What an observer writes down -/

/-- The arguments of a call that begins in the cycle. -/
def callArgs : FirHwArgs where
  tlastDnum := s.control.intTlastDnum
  smplRdNum := s.control.intSmplRdNum
  tapNumM1 := s.control.intTapNumM1
  coeffHw := fun k => ⟨s.control.mem k⟩
  inputL := ⟨i.inputL⟩
  inputR := ⟨i.inputR⟩

/-- The arguments with the coefficient word at `addr` that the cycle reads. -/
def readCoeff (addr : BitVec 9) (args : FirHwArgs) : FirHwArgs :=
  { args with coeffHw := Function.update args.coeffHw addr ⟨s.control.mem addr⟩ }

/-- The cycle reads the coefficient of a tap. -/
def tapRead : Bool := s.loop.ce0 (s.loopIn i) && !s.loop.icmpLn32 (s.loopIn i)

/-- The arguments after the cycle. -/
def nextArgs (args : FirHwArgs) : FirHwArgs :=
  if s.tapRead i then s.readCoeff (s.loop.coeffHwAddress0 (s.loopIn i)) args else args

/-- What the cycle adds to the record. -/
def event : CallEvent FirHwArgs AxisType where
  begins := if s.accept i then some (s.callArgs i) else none
  completes := s.nextArgs i
  ends := s.endCall i
  delivers := BoundedFifo.given (s.regsliceIn i).toDrive s.res.ports

/-- One clock edge with its record. -/
def stepTraced (p : FirHwRtl × CallTrace FirHwArgs AxisType) (i : FirCycle) :
    (FirHwRtl × CallTrace FirHwArgs AxisType) × FirOut :=
  (((p.1.step i).1, p.2.record (p.1.event i)), (p.1.step i).2)

end FirHwRtl

end FpgaLabor
