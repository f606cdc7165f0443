import Tenzro.EpochCompletion
import Tenzro.OwnBatchRuns
import Tenzro.VoteHighWater
import Tenzro.LightClientSound
import Tenzro.StateTriePrune
import Tenzro.StateTrieSnapshot
import Tenzro.RouteSettlement
import Tenzro.ReceiptSound
import Tenzro.TendermintSound
import Tenzro.StoreEntrySound
import Tenzro.RedStuffSound
import Tenzro.StakingVotes
import Tenzro.StakingEvidence
import Tenzro.VetoEscrowSound
import Tenzro.BridgeExitSound
import Tenzro.RateBand
import Tenzro.RateRuns
import Tenzro.RoleStakesRuns
import Tenzro.TreasuryReserveRuns
import Tenzro.GrantsSound
import Tenzro.MeterBondSound
import Tenzro.SettlementLocks
import Tenzro.ReconciliationJudged
import Tenzro.VotingWeightsFair
import Tenzro.BatchOrder
import Tenzro.BlockCutting
import Tenzro.LazySchedule
import Tenzro.InsuranceSound
import Tenzro.MerkleTree
import Tenzro.ProRata
import Tenzro.SplitRules
import Tenzro.BeaconSound
import Tenzro.BitcoinInclusion
import Tenzro.SvmWire
import Tenzro.DeclaredLegs
import Tenzro.PaymentReferences
import Tenzro.StreamClaims
import Tenzro.Framing
import Tenzro.Netting
import Tenzro.BitcoinWitness
