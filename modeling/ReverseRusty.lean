import ReverseRusty.ControlMove
import ReverseRusty.ControlResize
import ReverseRusty.RaftLogCrash
import ReverseRusty.Handoff
import ReverseRusty.LocalShardRestart
import ReverseRusty.PredicateSafe
import ReverseRusty.WalLog
import ReverseRusty.Dsl
import ReverseRusty.BatchAgrees
import ReverseRusty.VocabEquivalences
import ReverseRusty.RankTree
import ReverseRusty.RankedPages
import ReverseRusty.DeliveryExact
import ReverseRusty.Allocator
import ReverseRusty.Percolate
import ReverseRusty.MoveWaves
import ReverseRusty.WriteLocks
import ReverseRusty.MoveFence
import ReverseRusty.BulkLoad
import ReverseRusty.ResizeGovernor
import ReverseRusty.ContentFingerprint
import ReverseRusty.Topology
import ReverseRusty.LogicalIds
import ReverseRusty.MoveLedger
