import UbsIo.Cache.Lock
import UbsIo.Client.Versions
import UbsIo.Server.Offset
import UbsIo.Server.Codes
import UbsIo.Pt.FinishProtocol
import UbsIo.Pt.Master
import UbsIo.Pt.Initial
import UbsIo.Cm.Expiry
import UbsIo.Mms.Publish
import UbsIo.Bdm.Crash
import UbsIo.Bdm.Scan
import UbsIo.Bdm.Lengths
import UbsIo.Bdm.Robust
import UbsIo.Bdm.Layout
import UbsIo.Bdm.BadFree
import UbsIo.Buddy.Reachable
import UbsIo.Server.Replay
import UbsIo.Message.Bounds
import UbsIo.Message.Retry
import UbsIo.Allocator.Exhausted
import UbsIo.Sequence.Lists
import UbsIo.Notify.WakeUp
import UbsIo.Flows.Waiters
import UbsIo.Flows.Recover
import UbsIo.Negotiate.Progress
import UbsIo.Wcache.Restart
import UbsIo.Wcache.Release
import UbsIo.Crb.Converge
import UbsIo.Slices.Copy
import UbsIo.Slices.RoundTrip
import UbsIo.Client.Confirmed
import UbsIo.Client.Get
import UbsIo.Negotiate.Select
import UbsIo.Cursor.Prefix
import UbsIo.Evict.Restart
import UbsIo.Flows.Released
import UbsIo.Pt.Relief
import UbsIo.Sequence.Master
import UbsIo.Slices.Ref
import UbsIo.Ring.Queue
import UbsIo.Crb.Select
import UbsIo.Allocator.Orders
import UbsIo.Crb.Finish
import UbsIo.Wcache.LastWrite
import UbsIo.Rcache.Stuck
import UbsIo.Fixed.Steps
