import Naza.Concrete
import Naza.PoolValidity
import Naza.DifficultyWindow
import Naza.GlobalIndices
import Naza.Identity
import Naza.P2pSeria
import Naza.RewardBound
import Naza.CanonicalCodec
import Naza.TipWeight
import Naza.HeaderCache
import Naza.TransactionIndex
import Naza.ChainSync
import Naza.Wallet.Follows
import Naza.Wallet.SyncRuns
import Naza.Wallet.FileRuns
import Naza.Wallet.Selection
import Naza.Wallet.Agreement
import Naza.Wallet.Spendable
import Naza.AmountText
import Naza.Base58
import Naza.Wallet.Prediction
import Naza.Wallet.Transfers
import Naza.Wallet.PoolHistory
import Naza.Wallet.PaymentQueue
import Naza.P2p.ClientBasic
import Naza.ChildrenCounters
import Naza.P2p.PeerDb
import Naza.P2p.PeerLists
import Naza.Downloader
import Naza.DownloaderAccounts
import Naza.DownloaderCells
import Naza.Wallet.MemoryState
import Naza.Varint
import Naza.ProofOfWork
import Naza.MerkleBranch
import Naza.ExtraFields
import Naza.DifficultyV1
import Naza.Json
import Naza.KeyValueRoundTrip
import Naza.BlockImportRuns
import Naza.ReservedArea
import Naza.PenalizedAmount
import Naza.P2p.ClientRuns
import Naza.Lib.WorkerPool
import Naza.RingCheckerMulticore
import Naza.Crypto.Curve
import Naza.Crypto.GroupOrder
import Naza.Crypto.OneTimeKeys
import Naza.Crypto.Soundness
import Naza.Wallet.Builder
import Naza.Wallet.Mixing
import Naza.Wallet.DustFlags
import Naza.Wallet.Preparator
import Naza.Wallet.SendProof
import Naza.Http.Accepted
import Naza.Http.Client
import Naza.Http.Server
import Naza.RandomOutputs
