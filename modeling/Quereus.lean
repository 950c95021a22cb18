import Quereus.Store.PrefixBounds
import Quereus.Store.CanonicalJson
import Quereus.Sync.BatchSplitting
import Quereus.Sync.DeltaCompleteness
import Quereus.Sync.ChangeLogKeys
import Quereus.Sync.MigrationOrder
import Quereus.Memory.Atomicity
import Quereus.Memory.Uniqueness
import Quereus.Memory.SiblingCommit
import Quereus.Store.SnapshotStack
import Quereus.Store.CacheLimits
import Quereus.Isolation.Savepoints
import Quereus.Isolation.MergedReadExact
import Quereus.Value.KeySerializer
import Quereus.Core.ChangeCoverage
import Quereus.Core.LifecycleRuns
import Quereus.Planner.JoinSoundness
import Quereus.Planner.OrderByPruning
import Quereus.Planner.ViewRewrite
import Quereus.Runtime.WindowFrameExact
import Quereus.Util.Latches
import Quereus.Util.Like
