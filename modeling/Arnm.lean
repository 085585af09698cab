import Arnm.Lib.Listing
import Arnm.Lib.Search
import Arnm.Lib.Masks
import Arnm.Lib.Words
import Arnm.Lib.Merge
import Arnm.Lib.Region
import Arnm.Lib.Pointers
import Arnm.Lib.Linked
import Arnm.Lib.Lending
import Arnm.Lib.Sorted
import Arnm.Lib.Queue
import Arnm.Lib.Probing
import Arnm.Result
import Arnm.Memory.Arena
import Arnm.Memory.Calls
import Arnm.Memory.Marker
import Arnm.Memory.Blocks
import Arnm.Memory.Client
import Arnm.Memory.Resize
import Arnm.Memory.Others
import Arnm.Memory.MemoryBlock
import Arnm.Memory.Provider
import Arnm.Memory.Refused
import Arnm.Memory.OneArena
import Arnm.Pool.Graded
import Arnm.Pool.Carve
import Arnm.Pool.Ledger
import Arnm.Pool.Steps
import Arnm.Pool.Runs
import Arnm.Pool.Service
import Arnm.Roaring.Container
import Arnm.Roaring.Bitmap
import Arnm.Roaring.Source
import Arnm.Roaring.SparseUnion
import Arnm.Roaring.KeyUnion
import Arnm.Roaring.KeyEmit
import Arnm.Roaring.QueryKey
import Arnm.Roaring.QueryWalk
import Arnm.Roaring.Query
import Arnm.Roaring.Build
import Arnm.Roaring.Emit
import Arnm.Roaring.Add
import Arnm.Roaring.Sequence
import Arnm.Roaring.Refused
import Arnm.Roaring.Ops
import Arnm.Roaring.Combine
import Arnm.Roaring.KeyWalk
import Arnm.Roaring.SparseFilter
import Arnm.Roaring.SetOps
import Arnm.Roaring.Store
import Arnm.Ring.FixedRing
import Arnm.Ring.Bounded
import Arnm.Vector.BucketVector
import Arnm.Vector.Shape
import Arnm.Vector.Growth
import Arnm.Vector.Release
import Arnm.Vector.Filled
import Arnm.Vector.Steps
import Arnm.Vector.Append
import Arnm.Vector.Runs
import Arnm.Vector.Held
import Arnm.Keys.KeyMap
import Arnm.Keys.Table
import Arnm.Keys.Steps
import Arnm.Keys.Insert
import Arnm.Keys.Runs
import Arnm.Keys.Placement
import Arnm.Keys.Held
import Arnm.Json.BlockHooks
import Arnm.Json.HookRuns
import Arnm.Json.Span
import Arnm.Lib.Walk
import Arnm.Memory.Borrower
import Arnm.ArenaPool.FreeList
import Arnm.ArenaPool.Fixed
import Arnm.ArenaPool.FixedRuns
import Arnm.Memory.Recorded
import Arnm.ArenaPool.Dynamic
import Arnm.ArenaPool.DynamicSteps
import Arnm.ArenaPool.Stock
import Arnm.ArenaPool.DynamicRuns
import Arnm.ArenaPool.Graded
import Arnm.ArenaPool.GradedRuns
import Arnm.Text.Utf8
import Arnm.Lib.Writes
import Arnm.Text.Base64
import Arnm.Text.Base64Decode
import Arnm.Text.Base64Encode
import Arnm.Text.Hex
import Arnm.Json.Value
import Arnm.Json.ReadArray
import Arnm.Json.ReadObject
import Arnm.Roaring.Reading
import Arnm.Lib.Blocks
import Arnm.Roaring.Page
import Arnm.Memory.Lifo
import Arnm.Vector.GiveBack
import Arnm.Lib.Forest
import Arnm.Json.Writer
import Arnm.Json.WriterFold
import Arnm.Lib.Mixing
import Arnm.Keys.Hash
import Arnm.Text.Decimal
import Arnm.ArenaPool.GradedLookup
import Arnm.Pool.Dropped
import Arnm.Roaring.WalkRuns
import Arnm.Roaring.Strategies
import Arnm.Roaring.Checked
import Arnm.Lib.Buffer
import Arnm.Roaring.CheckedOps
import Arnm.Roaring.StackBuffers
import Arnm.Keys.SipHash
import Arnm.Lib.Digits
import Arnm.Bitmap
import Arnm.Memory.ByteBuffer
import Arnm.ArenaPool.GradedLife
import Arnm.Lib.Enumerated
import Arnm.Roaring.PlainSets
import Arnm.Roaring.PlainReads
import Arnm.Json.Reader
import Arnm.Json.WriteOut
import Arnm.Memory.HostBlocks
import Arnm.Text.Allocated
import Arnm.Json.Outline
import Arnm.Json.Uuid
import Arnm.Json.RoundTrip
