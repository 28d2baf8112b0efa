import Vcomp.Foundation.NearestInterval
import Vcomp.Foundation.SortUnique
import Vcomp.Plr.GreedyFit
import Vcomp.Plr.Inverse
import Vcomp.Plr.FitError
import Vcomp.Kmv.Validity
import Vcomp.Sst.History
import Vcomp.Sst.SplitCap
import Vcomp.Sst.MergeRanks
import Vcomp.Sst.MergeSweep
import Vcomp.Lsm.Comparator
import Vcomp.Kmv.MergeValidity
import Vcomp.Protocol.Reporting
import Vcomp.Protocol.RefillRound
import Vcomp.Materialize.Agreement
import Vcomp.Materialize.Membership
import Vcomp.Materialize.Ranges
import Vcomp.Materialize.MaterializeKeys
import Vcomp.Load.Sharding
import Vcomp.Trace.Exact
import Vcomp.Lsm.CachedStats
import Vcomp.Lsm.PickerExact
import Vcomp.Version.CompactionPri
import Vcomp.RangeDel.Covering
import Vcomp.Wal.RoundTrip
import Vcomp.Wal.StaleTail
import Vcomp.Table.SeekForGet
import Vcomp.Ribbon.Solution
import Vcomp.WritePrepared.Visibility
import Vcomp.Lock.PointLock
import Vcomp.Lock.DeadlockDetect
import Vcomp.Flush.InstallOrder
import Vcomp.WritePrepared.SnapshotUpdates
import Vcomp.WriteThread.WritersKept
import Vcomp.SkipList.Concurrent
import Vcomp.WritePrepared.CommitEntry64b
import Vcomp.WritePrepared.PreparedHeap
