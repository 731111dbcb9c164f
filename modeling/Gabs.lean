import Gabs.Lib.Lts
import Gabs.Lib.Sizes
import Gabs.Timer.Posix.Model
import Gabs.Timer.Posix.Steps
import Gabs.Timer.Posix.Ownership
import Gabs.Timer.Posix.Descriptors
import Gabs.Timer.Posix.Handles
import Gabs.Timer.Posix.Lifecycle
import Gabs.Timer.Posix.Lock
import Gabs.Timer.Posix.PollSet
import Gabs.Timer.Posix.Reclaim
import Gabs.Timer.Posix.Worker
import Gabs.Timer.Posix.Quiesce
import Gabs.Timer.Posix.Signal
import Gabs.Timer.Posix.Expiry
import Gabs.Timer.Posix.Arms
import Gabs.Timer.Posix.Pledge
import Gabs.Timer.Posix.Overlap
import Gabs.Timer.Posix.Clash
import Gabs.Timer.Posix.Lookup
import Gabs.Timer.Manual.Model
import Gabs.Timer.Manual.Steps
import Gabs.Timer.Manual.Sane
import Gabs.Timer.Manual.Order
import Gabs.Timer.Manual.Ledger
import Gabs.Timer.Manual.Client
import Gabs.Timer.Manual.Additive
import Gabs.Timer.Manual.Wraps
import Gabs.Timer.Manual.Nested
import Gabs.Timer.StandIn
import Gabs.Pbuf.Model
import Gabs.Pbuf.Buf
import Gabs.Pbuf.Chain
import Gabs.Pbuf.Content
import Gabs.Pbuf.Shrink
import Gabs.Pbuf.View
import Gabs.Pbuf.Seek
import Gabs.Pbuf.Copy
import Gabs.Pbuf.Calls
import Gabs.Pbuf.Fits
import Gabs.Pbuf.Kept
import Gabs.Pbuf.Put
import Gabs.Pbuf.Made
import Gabs.Pbuf.Rooms
import Gabs.Pbuf.Readonly
import Gabs.Pbuf.Bytes
import Gabs.Pbuf.Clone
import Gabs.Pbuf.Ranges
import Gabs.Pbuf.Splice
import Gabs.Pbuf.Strip
import Gabs.Pbuf.Append
import Gabs.Pbuf.Owned
import Gabs.Pbuf.Tame
import Gabs.Pbuf.Linear
import Gabs.Pbuf.Refused
import Gabs.Alloc.Std
import Gabs.Pbuf.Promised
import Gabs.Pbuf.Zephyr.Model
import Gabs.Pbuf.Zephyr.Cursor
import Gabs.Lib.Tally
import Gabs.Contrib.Timediff
import Gabs.Lib.CasLoop
import Gabs.Timer.Posix.MaskLoop
import Gabs.Lib.Within
import Gabs.Timer.Manual.Bounded
import Gabs.Timer.Posix.Failure
import Gabs.Timer.Zephyr.Fresh
import Gabs.Timer.Zephyr.Counts
import Gabs.Timer.Zephyr.Lists
import Gabs.Lib.Refine
import Gabs.Timer.Zephyr.Deinit
import Gabs.Timer.Zephyr.Closed
import Gabs.Lib.Fair
import Gabs.Timer.Posix.Progress
import Gabs.Timer.Posix.Leave
import Gabs.Timer.Posix.Noticed
import Gabs.Timer.Posix.Fires
import Gabs.Lib.Rope
import Gabs.Pbuf.Ops
import Gabs.Pbuf.Pieces
import Gabs.Pbuf.Ropes
import Gabs.Pbuf.Edits
import Gabs.Pbuf.Refined
import Gabs.Timer.Zephyr.Fires
import Gabs.Lib.Agenda
import Gabs.Timer.Manual.Calendar
import Gabs.Lib.Tandem
import Gabs.Pbuf.Interface
import Gabs.Pbuf.Zephyr.Buffers
import Gabs.Pbuf.Zephyr.Twins
import Gabs.Pbuf.Zephyr.Links
import Gabs.Pbuf.Zephyr.Lockstep
import Gabs.Pbuf.Zephyr.Portable
import Gabs.Pbuf.Zephyr.Interchange
import Gabs.Pbuf.Zephyr.Roped
