import SqlChain.Types
import SqlChain.Keys
import SqlChain.BlockIndex
import SqlChain.Runtime
import SqlChain.AckIndex
import SqlChain.Chain
import SqlChain.Rebuild
import SqlChain.Billing
import SqlChain.Workers
import SqlChain.Heights
import SqlChain.Rotation
import SqlChain.Cancellation
import SqlChain.BillingRounds
import SqlChain.BillingLaw
import SqlChain.StashReturn
import SqlChain.Invariant
import SqlChain.Restart
import SqlChain.Consistency
import SqlChain.Cluster
import SqlChain.Agreement
import SqlChain.Startup
import SqlChain.ErrorPaths
import SqlChain.AckPush
import SqlChain.BillingWrap
import SqlChain.Fetch
import SqlChain.BodyCache
import SqlChain.NodeRuns
import SqlChain.ClusterRuns
import SqlChain.Reopen
