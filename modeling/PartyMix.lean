import PartyMix.Lib.ChainPrefix
import PartyMix.Lib.FiniteMap
import PartyMix.Lib.FirstWins
import PartyMix.Lib.Transition
import PartyMix.PaymentConservation
import PartyMix.PaymentOwnership
import PartyMix.PaymentTotality
import PartyMix.Compliance
import PartyMix.BlockRecord
import PartyMix.BlockchainLocations
import PartyMix.ReorgMap
import PartyMix.DepositReplay
import PartyMix.AccountHistory
import PartyMix.CommittedCoins
import PartyMix.SpentHistory
import PartyMix.PublisherPipeline
import PartyMix.Solvency
import PartyMix.WithdrawalReplay
import PartyMix.Ledger
import PartyMix.LedgerLimits
import PartyMix.SolvencyCheck
import PartyMix.Consolidation
import PartyMix.ReorgDepth
import PartyMix.ReorgUndo
import PartyMix.Confirmations
import PartyMix.TransactionHash
import PartyMix.AccumulatorValue
import PartyMix.PrimaryAccount
import PartyMix.PaymentGraph
import PartyMix.CoinIdentity
import PartyMix.ChainValue
import PartyMix.ChainLedger
import PartyMix.ProfileRefinement
import PartyMix.IdleAggregates
import PartyMix.Publication
import PartyMix.Shortfall
import PartyMix.Backing
import PartyMix.SignedPayment
import PartyMix.Deliveries
import PartyMix.SpentAccumulatorValue
import PartyMix.Api
