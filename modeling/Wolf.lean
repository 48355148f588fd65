import Wolf.AuxPow.Branches
import Wolf.PoolJournal.Failures
import Wolf.PoolJournal.CompareAndSwap
import Wolf.ShareJournal.Fingerprint
import Wolf.Consensus.Template
import Wolf.NonFinalized.WriteLoop
import Wolf.NonFinalized.Nullifiers
import Wolf.NonFinalized.Sharing
import Wolf.NonFinalized.Spends
import Wolf.PoolJournal.Pages
import Wolf.Mempool.Storage
import Wolf.BlockTemplate.Zip317
import Wolf.Difficulty.Adjustment
import Wolf.Difficulty.Target
import Wolf.AuxBlock.Publication
import Wolf.PoolActor.ShareTarget
import Wolf.PoolJournal.Settling
import Wolf.PoolActor.AuditRound
import Wolf.PoolActor.ZcashRecovery
import Wolf.ShareJournal.Funding
import Wolf.Wallet.Matching
import Wolf.FinalizedState.AddressRanges
import Wolf.PoolJournal.Shares
