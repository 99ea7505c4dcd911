import SkynetJit.Lib.Transition
import SkynetJit.Lib.Bytes
import SkynetJit.Lib.Raise
import SkynetJit.Lib.Frames
import SkynetJit.Lib.BitArray
import SkynetJit.Lib.Words
import SkynetJit.Lib.Popcount
import SkynetJit.Lib.Significant
import SkynetJit.Lib.Draw
import SkynetJit.Lib.Morton
import SkynetJit.Lib.Interval
import SkynetJit.Lib.DepthLimit
import SkynetJit.Lib.Skiplist
import SkynetJit.Lib.Rearrange
import SkynetJit.Lib.Buckets
import SkynetJit.Redis.Lua
import SkynetJit.Redis.Decimal
import SkynetJit.Redis.Number
import SkynetJit.Redis.Hll.Dense
import SkynetJit.Redis.Hll.Sparse
import SkynetJit.Redis.Hll.SparseSet
import SkynetJit.Redis.Hll.Kernel
import SkynetJit.Redis.Hll.Facade
import SkynetJit.Redis.Hll.Cache
import SkynetJit.Redis.Hll.Merge
import SkynetJit.Redis.Hll.Promotion
import SkynetJit.Redis.Hll.Count
import SkynetJit.Redis.Hll.Growth
import SkynetJit.Redis.Listpack
import SkynetJit.Redis.Pqsort
import SkynetJit.Redis.Blob
import SkynetJit.Redis.Random
import SkynetJit.Redis.Dict.Kernel
import SkynetJit.Redis.Dict.Rehash
import SkynetJit.Redis.Dict.Refinement
import SkynetJit.Redis.Dict.Sample
import SkynetJit.Redis.Dict.Walk
import SkynetJit.Redis.Set.Intset
import SkynetJit.Redis.Set.Kernel
import SkynetJit.Redis.Set.Facade
import SkynetJit.Redis.Set.Refinement
import SkynetJit.Redis.Set.Algebra
import SkynetJit.Redis.Set.Blob
import SkynetJit.Redis.Set.Random
import SkynetJit.Redis.Bitmap.Kernel
import SkynetJit.Redis.Bitmap.Bitfield
import SkynetJit.Redis.Bitmap.Bitop
import SkynetJit.Redis.Bitmap.Bitpos
import SkynetJit.Redis.Bitmap.Bitcount
import SkynetJit.Redis.Bitmap.Setbit
import SkynetJit.Redis.Bitmap.Readers
import SkynetJit.Redis.Zset.Score
import SkynetJit.Redis.Zset.Skiplist
import SkynetJit.Redis.Zset.Listpack
import SkynetJit.Redis.Zset.Kernel
import SkynetJit.Redis.Zset.Blob
import SkynetJit.Redis.Zset.Double
import SkynetJit.Redis.Zset.Exact
import SkynetJit.Redis.Zset.SetOp
import SkynetJit.Redis.Zset.Range
import SkynetJit.Redis.Zset.Facade
import SkynetJit.Redis.Zset.System
import SkynetJit.Redis.Zset.RoundTrip
import SkynetJit.Redis.Zset.Reference
import SkynetJit.Redis.Zset.Infinity
import SkynetJit.Redis.Zset.Slice
import SkynetJit.Redis.Zset.Store
import SkynetJit.Redis.Zset.Agreement
import SkynetJit.Redis.Zset.Sequential
import SkynetJit.Redis.Zset.Random
import SkynetJit.Redis.Geo.Cells
import SkynetJit.Redis.Geo.Command
import SkynetJit.Redis.Geo.Hash
import SkynetJit.Redis.Geo.Search
import SkynetJit.Redis.Geo.Store
import SkynetJit.Redis.Geo.Nearest
import SkynetJit.Redis.Wrapper
import SkynetJit.Redis.Loaders
import SkynetJit.Redis.Atomicity
import SkynetJit.Sharetable.Graph
import SkynetJit.Sharetable.Codec
import SkynetJit.Sharetable.CodecEncode
import SkynetJit.Sharetable.CodecRoundTrip
import SkynetJit.Sharetable.Protocol
import SkynetJit.Sharetable.RefCount
import SkynetJit.Sharetable.HotUpdate
import SkynetJit.Win64.Registry
import SkynetJit.Win64.Socket
import SkynetJit.Compat.Pack
import SkynetJit.Compat.Format
import SkynetJit.Compat.Packed
import SkynetJit.Compat.Integers
import SkynetJit.Compat.RoundTrip
import SkynetJit.Compat.Bounds
import SkynetJit.Lib.FirstPath
import SkynetJit.Sharetable.Naming
import SkynetJit.Sharetable.Proxy
import SkynetJit.Sharetable.Accepts
import SkynetJit.Sharetable.FindPath
import SkynetJit.Sharetable.Faithful
import SkynetJit.Sharetable.StablePath
import SkynetJit.Zset.Skiplist
import SkynetJit.Zset.Object
import SkynetJit.Zset.Ranking
