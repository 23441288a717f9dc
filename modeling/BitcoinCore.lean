import BitcoinCore.NetProcessing.ChainSync
import BitcoinCore.NetProcessing.Attribution
import BitcoinCore.NetProcessing.StallRecords
import BitcoinCore.NetProcessing.RelayScore
import BitcoinCore.MerkleBlock.Soundness
import BitcoinCore.BlockFilter
import BitcoinCore.CuckooCache
import BitcoinCore.HeadersSync.Completeness
import BitcoinCore.Coins.Compression
import BitcoinCore.BlockEncodings.Relay
import BitcoinCore.BlockEncodings.Counters
import BitcoinCore.TxRequest.Requests
import BitcoinCore.TxRequest.SanityCheck
import BitcoinCore.ClusterLinearize.PostGuarantees
import BitcoinCore.VersionBits
import BitcoinCore.Util.Asmap
import BitcoinCore.Validation.LockPoints
import BitcoinCore.Validation.BlockUndo
import BitcoinCore.Node.Eviction
import BitcoinCore.Node.MiniMiner
import BitcoinCore.Node.BlockStorage
import BitcoinCore.TxDownload.Malleation
import BitcoinCore.TxGraph.BlockBuilder
import BitcoinCore.TxGraph.ChunkIndex
import BitcoinCore.TxGraph.Diagrams
import BitcoinCore.RollingBloom
