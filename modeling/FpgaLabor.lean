import FpgaLabor.Base.Mealy
import FpgaLabor.Base.CallTrace
import FpgaLabor.Base.Lts
import FpgaLabor.Base.ApFixed
import FpgaLabor.Base.TruncatedSum
import FpgaLabor.Base.PacketCounter
import FpgaLabor.Base.HistoryRing
import FpgaLabor.Base.Elapsed
import FpgaLabor.Base.ShiftRegister
import FpgaLabor.Base.EdgePairs
import FpgaLabor.Base.BoundedFifo
import FpgaLabor.Base.ByteLanes
import FpgaLabor.Base.BusProgram
import FpgaLabor.Base.BlockRing
import FpgaLabor.Base.Backlog
import FpgaLabor.Hls.Types
import FpgaLabor.Hls.FirHw
import FpgaLabor.Hls.BypassHw
import FpgaLabor.Hls.Convolution
import FpgaLabor.Hls.Framing
import FpgaLabor.Hls.Identity
import FpgaLabor.Hls.Decimation
import FpgaLabor.Hls.FilterCoeffs
import FpgaLabor.Hls.Headroom
import FpgaLabor.Hls.ShippedFilters
import FpgaLabor.Rtl.AudioInterface
import FpgaLabor.Rtl.StereoFifos
import FpgaLabor.Rtl.StereoPairing
import FpgaLabor.Rtl.RegsliceBoth
import FpgaLabor.Rtl.StreamPort
import FpgaLabor.Rtl.FifoGenerator
import FpgaLabor.Rtl.ControlSAxi
import FpgaLabor.Rtl.FirPipeline
import FpgaLabor.Rtl.FirHwRtl
import FpgaLabor.Rtl.FirHwPhases
import FpgaLabor.Rtl.FirHwRuns
import FpgaLabor.Rtl.BypassHwRtl
import FpgaLabor.Host.DmaController
import FpgaLabor.Host.Application
import FpgaLabor.Host.HandOff
import FpgaLabor.Host.Pacing
import FpgaLabor.Host.Session
import FpgaLabor.Host.RingWalk
import FpgaLabor.Host.BlockLifetime
import FpgaLabor.Host.CacheBlocks
import FpgaLabor.Host.PollingReceiver
import FpgaLabor.Host.FirDriver
import FpgaLabor.System.Programming
import FpgaLabor.System.Startup
import FpgaLabor.System.Throughput
import FpgaLabor.System.AudioPath
import FpgaLabor.System.Capture
import FpgaLabor.System.SerialPath
