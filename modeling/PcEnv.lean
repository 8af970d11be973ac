import PcEnv.Runs
import PcEnv.DepOrder
import PcEnv.PkgSort
import PcEnv.Word
import PcEnv.Circular
import PcEnv.Block
import PcEnv.Csrb
import PcEnv.Ccsrb
import PcEnv.CcsrbRuns
import PcEnv.Monitor
import PcEnv.MTQueue
import PcEnv.MTQueueWaits
import PcEnv.Framing
import PcEnv.Uartd
import PcEnv.BAStream
import PcEnv.UartdOut
import PcEnv.Recorder
import PcEnv.RecorderClips
import PcEnv.BAStreamReads
import PcEnv.FdOp
import PcEnv.UserFifo
import PcEnv.Base64File
import PcEnv.BinSplit
import PcEnv.Streak
import PcEnv.VadOp
import PcEnv.Autom
import PcEnv.CsrbClear
import PcEnv.CcsrbClear
import PcEnv.SockSend
import PcEnv.ReqContex
import PcEnv.ReqHeaders
import PcEnv.SelectServer
import PcEnv.FdTable
import PcEnv.SockServer
import PcEnv.SockReap
import PcEnv.SockRequest
import PcEnv.SockClose
import PcEnv.RingIndices
import PcEnv.BinSplitSizes
import PcEnv.Base64
import PcEnv.Argl
import PcEnv.ArglJoin
import PcEnv.CmdDispatch
import PcEnv.FifoScan
import PcEnv.PxTimer
import PcEnv.PxSem
import PcEnv.FifoHole
import PcEnv.FileCopy
import PcEnv.PopenGet
import PcEnv.RecorderRate
import PcEnv.AlsaStream
import PcEnv.AlsaWrite
import PcEnv.FdOpErrno
import PcEnv.BinSplitPre
import PcEnv.PkgDeps
import PcEnv.RoundBits
import PcEnv.VadEnergy
import PcEnv.Bytes
import PcEnv.OrderedMap
import PcEnv.Amf
import PcEnv.AmfFormat
import PcEnv.AmfConsumes
import PcEnv.AmfRoundTrip
import PcEnv.Amf3
import PcEnv.Incremental
import PcEnv.RtmpChunks
import PcEnv.RtmpStream
import PcEnv.RtmpFrames
import PcEnv.Acts
import PcEnv.RtmpServer
import PcEnv.RtmpMoves
import PcEnv.RtmpRuns
import PcEnv.RtmpSafety
import PcEnv.RtmpReads
import PcEnv.RtmpPieces
import PcEnv.RtmpFaults
import PcEnv.RtmpFaultRuns
import PcEnv.RtmpRelay
import PcEnv.RtmpPoll
import PcEnv.RtmpHandshake
