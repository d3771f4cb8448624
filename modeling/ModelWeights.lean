import ModelWeights.Error
import ModelWeights.Tensor
import ModelWeights.Lib.Strided
import ModelWeights.Lib.MixedRadix
import ModelWeights.Lib.Tiling
import ModelWeights.Lib.Buffer
import ModelWeights.Lib.RefCount
import ModelWeights.Lib.Transition
import ModelWeights.Lib.Termination
import ModelWeights.Lib.Parsing
import ModelWeights.Lib.OrderedMap
import ModelWeights.Lib.Canonical
import ModelWeights.Lib.PrefixCode
import ModelWeights.Lib.Json
import ModelWeights.Lib.Groups
import ModelWeights.Lib.FunctionalGraph
import ModelWeights.Lib.Trap
import ModelWeights.Lib.Success
import ModelWeights.Lib.Lockstep
import ModelWeights.Lib.Observed
import ModelWeights.Lib.BinarySearch
import ModelWeights.Lib.Program
import ModelWeights.Lib.Interference
import ModelWeights.Storage
import ModelWeights.Blocks
import ModelWeights.Identity
import ModelWeights.Graph.Facts
import ModelWeights.Graph.Infer
import ModelWeights.Graph.Builder
import ModelWeights.Graph.Kernel
import ModelWeights.Graph.Simd
import ModelWeights.Graph.Execute
import ModelWeights.Graph.Liveness
import ModelWeights.Graph.Accounting
import ModelWeights.Graph.Layout
import ModelWeights.Graph.KernelLayout
import ModelWeights.Graph.ConcatLayout
import ModelWeights.Graph.ChannelLayout
import ModelWeights.Graph.InferSpec
import ModelWeights.Graph.Denote
import ModelWeights.Graph.Refinement
import ModelWeights.Graph.Correct
import ModelWeights.Graph.Traps
import ModelWeights.Graph.Progress
import ModelWeights.Graph.Addressing
import ModelWeights.Graph.DenseStrides
import ModelWeights.Graph.FastPaths
import ModelWeights.Graph.ChannelProgress
import ModelWeights.Graph.NodeProgress
import ModelWeights.Graph.Counters
import ModelWeights.Graph.HostProgress
import ModelWeights.Graph.Uniform
import ModelWeights.Graph.Scratch
import ModelWeights.Graph.Estimate
import ModelWeights.Gguf.Reader
import ModelWeights.Gguf.Cursor
import ModelWeights.Gguf.Parse
import ModelWeights.Gguf.Spans
import ModelWeights.Gguf.Encode
import ModelWeights.Gguf.RoundTrip
import ModelWeights.Gguf.Declared
import ModelWeights.Safetensors.Table
import ModelWeights.Lib.Document
import ModelWeights.Safetensors.Header
import ModelWeights.Safetensors.Described
import ModelWeights.Safetensors.Streaming
import ModelWeights.Safetensors.Acceptance
import ModelWeights.Plan.Contract
import ModelWeights.Plan.Resolve
import ModelWeights.Plan.Selection
import ModelWeights.Plan.Diagnosed
import ModelWeights.Plan.Determinism
import ModelWeights.Plan.Agreement
import ModelWeights.Plan.Partition
import ModelWeights.Plan.Validity
import ModelWeights.Plan.Replay
import ModelWeights.Plan.Codec
import ModelWeights.Geometry
import ModelWeights.Graph.Laws
import ModelWeights.Plan.Untrusted
import ModelWeights.Pipeline.Budget
import ModelWeights.Pipeline.Machine
import ModelWeights.Pipeline.Moves
import ModelWeights.Pipeline.Sequential
import ModelWeights.Pipeline.Flow
import ModelWeights.Pipeline.Order
import ModelWeights.Pipeline.Permits
import ModelWeights.Pipeline.Progress
import ModelWeights.Pipeline.Ledger
import ModelWeights.Pipeline.Open
import ModelWeights.Pipeline.Promotion
import ModelWeights.Pipeline.Custody
import ModelWeights.Pipeline.Window
import ModelWeights.Pipeline.Outcome
import ModelWeights.Pipeline.Termination
import ModelWeights.Pipeline.Completion
import ModelWeights.Cache.Key
import ModelWeights.Cache.Files
import ModelWeights.Cache.Service
import ModelWeights.Cache.View
import ModelWeights.Cache.Sequential
import ModelWeights.Cache.Answers
import ModelWeights.Cache.Writing
import ModelWeights.Cache.Inventory
import ModelWeights.Cache.Refinement
import ModelWeights.Cache.Capacity
import ModelWeights.Cache.Discipline
import ModelWeights.Cache.Guarded
import ModelWeights.Cache.Sound
import ModelWeights.Cache.Staging
import ModelWeights.Cache.Publisher
import ModelWeights.Cache.Hits
import ModelWeights.Cache.Publication
import ModelWeights.Cache.Failures
import ModelWeights.Cache.Rollback
import ModelWeights.Cache.Unpublished
import ModelWeights.Cache.Shared
import ModelWeights.Cache.Exclusive
import ModelWeights.Cache.Leasing
import ModelWeights.Cache.Critical
import ModelWeights.Cache.Pinned
import ModelWeights.Cache.Contending
import ModelWeights.Cache.Once
import ModelWeights.Prepared.Address
import ModelWeights.Prepared.Separation
import ModelWeights.Prepared.Locality
import ModelWeights.Prepared.Materialize
import ModelWeights.Prepared.ChainMemory
import ModelWeights.Prepared.HostBytes
import ModelWeights.Prepared.Served
import ModelWeights.Prepared.Warm
import ModelWeights.Prepared.Deliveries
import ModelWeights.Prepared.History
import ModelWeights.Prepared.Contiguous
import ModelWeights.Prepared.SliceCast
import ModelWeights.Prepared.PlannedSizes
import ModelWeights.Prepared.Checkpoint
import ModelWeights.Prepared.Callback
import ModelWeights.Prepared.Reservation
import ModelWeights.Prepared.OutputAlias
import ModelWeights.Inventory.Records
import ModelWeights.Inventory.ShardIndex
import ModelWeights.Inventory.Open
import ModelWeights.Inventory.IndexText
import ModelWeights.Inventory.MetadataFile
import ModelWeights.Inventory.Container
import ModelWeights.Inventory.Reading
import ModelWeights.Inventory.Sharded
import ModelWeights.Prepared.Construction
import ModelWeights.Prepared.PlanCache
import ModelWeights.Overlay.Alias
import ModelWeights.Overlay.Layer
import ModelWeights.Overlay.Plan
import ModelWeights.Overlay.Composition
import ModelWeights.Overlay.Digest
import ModelWeights.Overlay.Codec
import ModelWeights.Inventory.Codec
