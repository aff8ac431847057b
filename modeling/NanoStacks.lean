import NanoStacks.Marf.Rewrite
import NanoStacks.Chain.Emission
import NanoStacks.Chain.Payouts
import NanoStacks.Chain.PostConditions
import NanoStacks.Chain.Rollback
import NanoStacks.Chain.Tenure
import NanoStacks.Chain.Assembly
import NanoStacks.Chain.Commitment
import NanoStacks.Sync.Tips
import NanoStacks.Bitcoin.Source
import NanoStacks.Tracker.Branch
import NanoStacks.Tracker.Interrupted
import NanoStacks.Sortition.Seeds
import NanoStacks.Sortition.Ranges
import NanoStacks.Codec.RoundTrip
import NanoStacks.Mempool.Pages
import NanoStacks.Checkpoint.Builders
import NanoStacks.Checkpoint.Binding
import NanoStacks.StackerDb.Replicate
import NanoStacks.Miner.Commitment
import NanoStacks.Miner.Responses
import NanoStacks.Miner.Finalized
import NanoStacks.Queue.Accounted
import NanoStacks.Signer.Protection
import NanoStacks.Follower.Inventories
import NanoStacks.Signer.Proposals
import NanoStacks.Crypto.Vrf
