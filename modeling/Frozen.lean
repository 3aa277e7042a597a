import Frozen.Core.Base
import Frozen.Core.Checked
import Frozen.Lib.Bytes
import Frozen.Lib.Propagate
import Frozen.Lib.Forest
import Frozen.Lib.Machine
import Frozen.Lib.Tally
import Frozen.Lib.Cycle
import Frozen.Lib.Rank
import Frozen.Mphf.Chm
import Frozen.Mphf.Handler
import Frozen.Mphf.Rep
import Frozen.Mphf.Recalc
import Frozen.Mphf.Insert
import Frozen.Mphf.Rebuild
import Frozen.Mphf.Run
import Frozen.Mphf.Update
import Frozen.Mphf.Reload
import Frozen.Mphf.Sizes
import Frozen.Mphf.Codec
import Frozen.Mphf.Lists
import Frozen.Ipc.Shmem
import Frozen.Ipc.Moves
import Frozen.Ipc.Slots
import Frozen.Ipc.Owner
import Frozen.Ipc.Exchange
import Frozen.Chain.Request
import Frozen.Chain.Backend
import Frozen.Chain.Signal
import Frozen.Chain.Lookup
import Frozen.Chain.Incapsulate
import Frozen.Chain.Balancer
import Frozen.Chain.Linear
import Frozen.Chain.Pool
import Frozen.Chain.Fast
import Frozen.Chain.Result
import Frozen.Chain.Rebuild
import Frozen.Chain.Monitor
import Frozen.Chain.Retry
import Frozen.Binary.Buffer
import Frozen.Binary.Hash
import Frozen.Binary.Roundtrip
import Frozen.Binary.Exact
import Frozen.Binary.Restore
import Frozen.Binary.Remote
import Frozen.Ipc.Remote
import Frozen.Binary.Struct
import Frozen.Binary.Section
import Frozen.Binary.Delimited
import Frozen.Binary.Capacity
import Frozen.Binary.Growth
import Frozen.Graph.List
import Frozen.Graph.Backend
import Frozen.Lib.Fuel
import Frozen.Lib.Unfold
import Frozen.Graph.Links
import Frozen.Graph.Loop
import Frozen.Graph.Destroy
import Frozen.Graph.Splice
import Frozen.Graph.Bag
import Frozen.Graph.Copy
import Frozen.Graph.Fork
import Frozen.Graph.Undo
import Frozen.Graph.Build
import Frozen.Graph.New
import Frozen.Graph.Run
import Frozen.Graph.Shutdown
import Frozen.Graph.Text
import Frozen.Hash.Memory
import Frozen.Hash.Copy
import Frozen.Hash.Compare
import Frozen.Rewrite.Blocks
import Frozen.Rewrite.Points
import Frozen.Rewrite.Assign
import Frozen.Rewrite.Persist
import Frozen.Rewrite.Resolve
import Frozen.Rewrite.Bounds
import Frozen.Rewrite.Meaning
import Frozen.Rewrite.Rules
import Frozen.Rewrite.Grammar
import Frozen.Chunked.Buffer
import Frozen.Chunked.Flat
import Frozen.Chunked.Seek
import Frozen.Config.Lexer
import Frozen.Config.Parser
import Frozen.Config.Descent
import Frozen.Config.Grammar
import Frozen.Config.Text
import Frozen.Config.Roundtrip
import Frozen.Config.Switch
import Frozen.Cache.Transfer
import Frozen.Cache.File
import Frozen.Cache.Backend
import Frozen.Cache.Sane
import Frozen.Cache.Enable
import Frozen.Cache.Transparent
import Frozen.Cache.Flush
import Frozen.Block.Memory
import Frozen.Block.Failure
import Frozen.Block.Sizes
import Frozen.Storage.Handle
import Frozen.Storage.Tail
import Frozen.Storage.Allocator
import Frozen.Storage.Move
import Frozen.Storage.List
import Frozen.Vfs.Path
import Frozen.Vfs.Tree
import Frozen.Vfs.Run
import Frozen.Vfs.Files
import Frozen.Vfs.Backend
import Frozen.Lib.Lex
import Frozen.Data.Holder
import Frozen.Data.Slice
import Frozen.Data.Slider
import Frozen.Data.Compare
import Frozen.Data.Scalar
import Frozen.Data.Transfer
import Frozen.Data.Split
import Frozen.Lib.Word
import Frozen.Data.Arith
import Frozen.Data.Convert
import Frozen.Lib.Chunks
import Frozen.Lib.Bits
import Frozen.Data.Text
import Frozen.Digest.Walk
import Frozen.Digest.Murmur
import Frozen.Digest.Jenkins
import Frozen.Mphf.Ending
import Frozen.Rewrite.Accept
import Frozen.Chain.Round
