import Mosaic.Memory.FirstFit
import Mosaic.Memory.ArenaLogic
import Mosaic.Graph.CustomGraph
import Mosaic.Graph.MemoryAnalyzer
import Mosaic.Graph.PlanEquations
import Mosaic.Block.BlockGraphs
import Mosaic.Block.BlockPlans
import Mosaic.Block.Forward
import Mosaic.Block.ForwardExact
import Mosaic.Diffusion.Lifecycle
import Mosaic.Diffusion.Decoding
import Mosaic.Diffusion.DecodingRun
import Mosaic.Engine.Abort
import Mosaic.Engine.Clients
import Mosaic.Engine.Executability
import Mosaic.Engine.PlannedSizes
import Mosaic.Search.Completeness
import Mosaic.Graph.Aliases
import Mosaic.Pool.VmmFailures
import Mosaic.Kv.PrefixClosed
import Mosaic.Kv.CachingAssertions
import Mosaic.Kv.Isolation
import Mosaic.Kv.HashAgreement
import Mosaic.Kv.Events
import Mosaic.Kv.FreeQueue
import Mosaic.Sched.Order
import Mosaic.Sched.Lora
import Mosaic.Sched.EncoderRuns
import Mosaic.Sched.Victims
import Mosaic.Sched.Synchronous
import Mosaic.Frontend.Collector
import Mosaic.Frontend.ParallelSampling
import Mosaic.Frontend.MmMirror
import Mosaic.Eplb.Exchange
import Mosaic.Broadcast.Timeouts
import Mosaic.Nixl.Release
import Mosaic.Benchmark.SmartBenchmark
import Mosaic.Graph.Liveness
import Mosaic.Block.ChunkedRows
import Mosaic.Gemm.GatheredProduct
import Mosaic.FlashSample.Normaliser
import Mosaic.FlashSample.ZeroTemperature
import Mosaic.FlashSample.Fused
import Mosaic.Graph.GreedyColoringSafety
import Mosaic.Graph.HybridSizes
import Mosaic.Graph.IlpSafety
import Mosaic.Kv.HybridHits
import Mosaic.Kv.LayoutPartition
import Mosaic.Sched.EncoderPlan
import Mosaic.SpecDecode.Lossless
import Mosaic.Batch.Swaps
import Mosaic.Kv.Admission
import Mosaic.SpecDecode.NgramProposer
import Mosaic.SpecDecode.DraftInputs
import Mosaic.Attention.LocalChunks
import Mosaic.Attention.TreeBias
import Mosaic.Frontend.StopStrings
import Mosaic.StructuredOutput.GrammarBitmask
import Mosaic.Sched.PriorityQueue
