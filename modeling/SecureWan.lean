import SecureWan.Lib.Runs
import SecureWan.Lib.TwoSlot
import SecureWan.Mbuf
import SecureWan.CryptoOp
import SecureWan.Encryptor.Enqueue
import SecureWan.Encryptor.Tunnel
import SecureWan.Encryptor.Device
import SecureWan.Encryptor.RoundTrip
import SecureWan.Encryptor.DecryptBounds
import SecureWan.Encryptor.EpochStamp
import SecureWan.KeyAgreement.Keyd
import SecureWan.KeyAgreement.AppKey
import SecureWan.KeyAgreement.KeyFreshness
import SecureWan.KeyAgreement.KeySender
import SecureWan.KeyAgreement.TwoBoxes
import SecureWan.Encryptor.KeySharing
import SecureWan.Transport.Tunnel
import SecureWan.Transport.Enqueue
import SecureWan.Transport.RoundTrip
import SecureWan.Lib.Logged
import SecureWan.Transport.DecryptAccess
import SecureWan.Encryptor.MainLoop
import SecureWan.Encryptor.Ownership
import SecureWan.Encryptor.AuthStatus
import SecureWan.Encryptor.ControlBridge
import SecureWan.ByteCache.Chunker
import SecureWan.ByteCache.CdcEngine
import SecureWan.ByteCache.FlushTimer
import SecureWan.ByteCache.Drain
import SecureWan.ByteCache.DrainRaces
import SecureWan.Lib.DList
import SecureWan.MemPool
import SecureWan.ByteCache.ChunkStore
import SecureWan.ByteCache.ChunkLog
import SecureWan.ByteCache.ChunkRuns
import SecureWan.ByteCache.ChunkRecovery
import SecureWan.Eth400g.DropStage
import SecureWan.Eth400g.FrameTags
import SecureWan.Eth400g.DropExact
import SecureWan.Eth400g.ElasticFifo
import SecureWan.Eth400g.TxProtocol
import SecureWan.Eth400g.FrameIntegrity
import SecureWan.Eth400g.Overflow
import SecureWan.Lib.Packets
import SecureWan.EthLoopback.PacketFifo
import SecureWan.EthLoopback.FrameStore
import SecureWan.EthLoopback.Delivery
import SecureWan.EthLoopback.TxStream
import SecureWan.WanOptimizer.Firewall
import SecureWan.WanOptimizer.QueueAgreement
import SecureWan.WanOptimizer.MixedThread
import SecureWan.Lib.Interleaving
import SecureWan.TunnelMode.SessionSetup
import SecureWan.Lib.Dealing
import SecureWan.Encryptor.Configuration
import SecureWan.TunnelMode.WireIv
import SecureWan.AesCore.Cipher
import SecureWan.AesCore.Handshake
import SecureWan.AesCore.Encrypt
import SecureWan.Lib.OnesComplement
import SecureWan.WanOptimizer.TcpChecksum
import SecureWan.WanOptimizer.RxThread
import SecureWan.WanOptimizer.LengthSafety
import SecureWan.WanOptimizer.RxOwnership
import SecureWan.WanOptimizer.PayloadMarker
import SecureWan.WanOptimizer.MarkerRoundTrip
import SecureWan.Eth400g.CheckerCompleteness
import SecureWan.WanOptimizer.StrippedLength
import SecureWan.Lib.ShiftRegister
import SecureWan.Eth400g.TagReuse
import SecureWan.Eth400g.RxGenerator
import SecureWan.Lib.Labelling
import SecureWan.Eth400g.FrameSeparation
import SecureWan.Eth400g.EvaluationOrder
import SecureWan.Encryptor.IvStorage
import SecureWan.Lib.Buckets
import SecureWan.WanOptimizer.QosPipeline
import SecureWan.WanOptimizer.QosProgress
import SecureWan.Lib.Programs
import SecureWan.KeyExchange.Board
import SecureWan.KeyExchange.Exchange
import SecureWan.ByteCache.PatchedDrain
import SecureWan.WanOptimizer.MixedLoop
import SecureWan.EthLoopback.Draining
import SecureWan.Eth400g.CleanDelivery
import SecureWan.KeyExchange.Vectors
import SecureWan.Encryptor.Rotation
import SecureWan.Eth400g.GeneratedFrames
import SecureWan.Eth400g.ModelBench
import SecureWan.Lib.RangeLoop
import SecureWan.Encryptor.Capabilities
