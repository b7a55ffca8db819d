import Terracoin.Validation.Supply
import Terracoin.Serialize.Coins
import Terracoin.Serialize.Compressor
import Terracoin.Validation.UndoData
import Terracoin.Coins.Refinement
import Terracoin.Chain.Atomicity
import Terracoin.Chain.Candidates
import Terracoin.Validation.Inverse
import Terracoin.Merkle.EncodedSize
import Terracoin.Serialize.Transaction
import Terracoin.Merkle.Soundness
import Terracoin.Mempool.OrphanTransactions
import Terracoin.Mining.UpdateTime
import Terracoin.Chain.ProcessBlock
import Terracoin.Net.Delivery
import Terracoin.Net.FilterMessages
import Terracoin.Net.Alert
import Terracoin.Validation.CheckQueue
import Terracoin.Wallet.KeyPool
import Terracoin.Wallet.CryptoKeyStore
import Terracoin.Wallet.PassphraseTimer
import Terracoin.Chain.BlockStorage
import Terracoin.Chain.TrxNotifier
import Terracoin.Chain.LoadBlockIndex
import Terracoin.Net.AddrManRestore
import Terracoin.Script.Safety
import Terracoin.Validation.SigOps
import Terracoin.Wallet.Spendable
import Terracoin.Wallet.Agreement
import Terracoin.Chain.MedianTime
import Terracoin.Chain.CoinbaseHeight
import Terracoin.Chain.EmaBounds
import Terracoin.Script.SignatureCache
import Terracoin.Script.CombineSignatures
import Terracoin.Mempool.FlushedCoins
import Terracoin.Chain.Resurrection
import Terracoin.Merkle.Branch
import Terracoin.Chain.Locator
import Terracoin.Chain.BlockFileInfo
import Terracoin.Wallet.SpentFlags
import Terracoin.Wallet.AccountingEntry
import Terracoin.Wallet.WalletTxFile
import Terracoin.Wallet.CoinSelection
import Terracoin.Wallet.CreateTransaction
import Terracoin.Wallet.AddressGroupings
import Terracoin.Wallet.KeptOrder
import Terracoin.Serialize.VarIntTypes
import Terracoin.Primitives.CompactForm
import Terracoin.Net.SelectTried
import Terracoin.Serialize.Money
import Terracoin.Serialize.BaseCode
import Terracoin.Serialize.Base64
import Terracoin.Serialize.Base58
import Terracoin.Lib.Regroup
import Terracoin.Wallet.ChangePassphrase
import Terracoin.Serialize.BufferedFile
import Terracoin.Chain.ExternalRecords
import Terracoin.Net.MruSet
import Terracoin.Net.MedianFilter
import Terracoin.Script.FindAndDelete
import Terracoin.Primitives.BaseUint
import Terracoin.Net.AskFor
import Terracoin.Wallet.ListTransactions
import Terracoin.Wallet.Moves
import Terracoin.Wallet.KeyObject
import Terracoin.Wallet.SignRawTransaction
import Terracoin.Mining.TemplateTest
import Terracoin.Net.BlockSync
import Terracoin.Net.TimeData
import Terracoin.Wallet.LockedPageManager
import Terracoin.Chain.VerifyDB
import Terracoin.Script.SignatureHash
import Terracoin.Script.CanonicalSignature
import Terracoin.Net.NodeSafety
import Terracoin.Net.Access
import Terracoin.Mining.GetWork
