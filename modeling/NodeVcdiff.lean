import NodeVcdiff.Transition
import NodeVcdiff.Number
import NodeVcdiff.Coder
import NodeVcdiff.Context
import NodeVcdiff.History
import NodeVcdiff.Engine
import NodeVcdiff.ContextProtocol
import NodeVcdiff.Core
import NodeVcdiff.Stack
import NodeVcdiff.Clearing
import NodeVcdiff.CoreStep
import NodeVcdiff.Control
import NodeVcdiff.Flow
import NodeVcdiff.Coded
import NodeVcdiff.Sound
import NodeVcdiff.Options
import NodeVcdiff.Safety
import NodeVcdiff.Progress
import NodeVcdiff.Failures
import NodeVcdiff.Trace
import NodeVcdiff.Feeding
import NodeVcdiff.Notes
import NodeVcdiff.Outcome
import NodeVcdiff.OneShot
import NodeVcdiff.OneShotReturn
import NodeVcdiff.EmptyCall
import NodeVcdiff.Refinement
import NodeVcdiff.Handles
import NodeVcdiff.Closing
import NodeVcdiff.ForcedChunks
import NodeVcdiff.Matching
import NodeVcdiff.FlushOnce
import NodeVcdiff.FlushMeans
import NodeVcdiff.Limits
import NodeVcdiff.RoundTrip
import NodeVcdiff.Lifetime
import NodeVcdiff.Loop
import NodeVcdiff.Incremental
import NodeVcdiff.Base128
import NodeVcdiff.PolynomialHash
import NodeVcdiff.LinkedChain
import NodeVcdiff.SelfCopy
import NodeVcdiff.OpenVcdiff.Varint
import NodeVcdiff.OpenVcdiff.AddressCache
import NodeVcdiff.OpenVcdiff.CodeTable
import NodeVcdiff.OpenVcdiff.InstructionMap
import NodeVcdiff.OpenVcdiff.CodeTableWriter
import NodeVcdiff.OpenVcdiff.CodeTableReader
import NodeVcdiff.OpenVcdiff.Adler32
import NodeVcdiff.OpenVcdiff.HeaderParser
import NodeVcdiff.OpenVcdiff.DeltaWindow
import NodeVcdiff.OpenVcdiff.Execution
import NodeVcdiff.OpenVcdiff.VcDecoder
import NodeVcdiff.OpenVcdiff.Layout
import NodeVcdiff.OpenVcdiff.WriterLayout
import NodeVcdiff.OpenVcdiff.ReaderLayout
import NodeVcdiff.OpenVcdiff.WindowHeader
import NodeVcdiff.OpenVcdiff.WindowRoundTrip
import NodeVcdiff.OpenVcdiff.RollingHash
import NodeVcdiff.OpenVcdiff.BlockHash
import NodeVcdiff.OpenVcdiff.BlockChains
import NodeVcdiff.OpenVcdiff.BlockMatch
import NodeVcdiff.OpenVcdiff.CodeTableWriterInterface
import NodeVcdiff.OpenVcdiff.DiffEngine
import NodeVcdiff.OpenVcdiff.EngineScript
import NodeVcdiff.OpenVcdiff.JsonWriter
import NodeVcdiff.OpenVcdiff.VcEncoder
import NodeVcdiff.OpenVcdiff.StreamingDecoder
import NodeVcdiff.OpenVcdiff.FileRoundTrip
