import Staut.Lib.Run
import Staut.Lib.Cyclic
import Staut.Lib.CSem
import Staut.Lib.PhaseRing
import Staut.Lib.Stripe
import Staut.Lib.Tile
import Staut.Lib.Segment
import Staut.Lib.Linked
import Staut.Lib.SlotRing
import Staut.Lib.Bytes
import Staut.Lib.Fields
import Staut.Lib.X86
import Staut.Lib.CallStack
import Staut.Lib.Hex
import Staut.Lib.Exclusive
import Staut.Myfs.Defs
import Staut.Myfs.Ops
import Staut.Myfs.Proof.Spec
import Staut.Myfs.Proof.Fresh
import Staut.Myfs.Proof.Ownership
import Staut.Myfs.Proof.Names
import Staut.Myfs.Proof.Gaps
import Staut.Myfs.Proof.Exhausted
import Staut.Myfs.Concurrent
import Staut.Myfs.Proof.Concurrent
import Staut.Myfs.Image
import Staut.Myfs.Proof.Image
import Staut.Myfs.Proof.Confined
import Staut.Nvme.Defs
import Staut.Nvme.Queue
import Staut.Nvme.Proof.Queue
import Staut.Nvme.Proof.Safety
import Staut.Nvme.Rings
import Staut.Nvme.Proof.Rings
import Staut.Nvme.Proof.Retaken
import Staut.Nvme.Init
import Staut.Nvme.Proof.Init
import Staut.Nvme.Reap
import Staut.Nvme.Proof.Reap
import Staut.Uring.Defs
import Staut.Uring.Proof.Attribution
import Staut.Uring.Completions
import Staut.Uring.Proof.Completions
import Staut.Hook.Impl
import Staut.Hook.Sys
import Staut.Hook.Machine
import Staut.Hook.Store
import Staut.Hook.Proof.Spec
import Staut.Hook.Proof.Refs
import Staut.Hook.Proof.Descriptors
import Staut.Hook.Proof.Batch
import Staut.Hook.Proof.Layout
import Staut.Hook.Proof.Chunks
import Staut.Hook.Proof.Control
import Staut.Hook.Proof.Transfer
import Staut.Hook.Proof.Store
import Staut.Hook.Proof.Sizes
import Staut.Hook.Seq
import Staut.Hook.Proof.Seq
import Staut.Hook.Proof.Place
import Staut.Hook.Writes
import Staut.Hook.Drives
import Staut.Hook.Proof.Frame
import Staut.Hook.Open
import Staut.Hook.Proof.Open
import Staut.Hook.Loops
import Staut.Hook.Proof.Loops
import Staut.Hook.Proof.Counters
import Staut.Hook.Proof.Translate
import Staut.Hook.Result
import Staut.Hook.Proof.Result
import Staut.Hook.Flags
import Staut.Hook.Proof.Flags
import Staut.Hook.Timeouts
import Staut.Hook.Proof.Timeouts
import Staut.Abt.Waitlist
import Staut.Abt.Proof.Waitlist
import Staut.Abt.Cond
import Staut.Abt.Proof.Cond
import Staut.Abt.WaitQueue
import Staut.Abt.Proof.WaitQueue
import Staut.Abt.Mutex
import Staut.Abt.Proof.Mutex
import Staut.Abt.Proof.Progress
import Staut.Abt.RwLock
import Staut.Abt.Proof.RwLock
import Staut.Abt.Fcontext
import Staut.Abt.Proof.Fcontext
import Staut.Abt.Key
import Staut.Abt.Proof.Key
import Staut.Pthread.Lazy
import Staut.Pthread.Proof.Lazy
import Staut.Pthread.Cond
import Staut.Pthread.Proof.Clock
import Staut.Pthread.Fifo
import Staut.Pthread.Proof.Fifo
import Staut.Pthread.Once
import Staut.Pthread.Proof.Once
import Staut.Backup.Defs
import Staut.Backup.Proof.Client
import Staut.Backup.Proof.Xfer
import Staut.Backup.Proof.Finish
import Staut.Backup.Proof.Tool
import Staut.Backup.Proof.Append
import Staut.Backup.Proof.Parse
import Staut.Backup.Proof.RoundTrip
import Staut.Zpoline.Defs
import Staut.Zpoline.Proof.Sled
import Staut.Zpoline.Proof.Entry
import Staut.Zpoline.Proof.Return
import Staut.Zpoline.Proof.Transparent
import Staut.Zpoline.Blkdev
import Staut.Zpoline.Proof.Blkdev
import Staut.Zpoline.Rewrite
import Staut.Zpoline.Proof.Rewrite
import Staut.Zpoline.Maps
import Staut.Zpoline.Proof.Maps
import Staut.Zpoline.Proof.Program
