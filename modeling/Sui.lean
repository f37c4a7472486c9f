import Sui.Adapter.Ownership
import Sui.Authority.ConsensusAdapter
import Sui.Authority.LockSafety
import Sui.Authority.RevertOrder
import Sui.DeepBook.CritbitRefinement
import Sui.Framework.AuthenticatorState
import Sui.Framework.Math
import Sui.Narwhal.Consensus.ScoreWindows
import Sui.Narwhal.Consensus.SwapTable
import Sui.Narwhal.Primary.BatchConservation
import Sui.Narwhal.Primary.RequestVote
import Sui.Narwhal.Primary.Synchronizer
import Sui.Narwhal.Storage.IndexAgreement
import Sui.StateSync.Certified
import Sui.System.DepartureStake
import Sui.System.RewardClamp
import Sui.System.RewardDistribution
import Sui.System.Tenure
import Sui.System.Uniqueness
import Sui.TransactionManager.Wakeup
