import Nocostcoin.SenderOnly
import Nocostcoin.Chain.Replay
import Nocostcoin.Chain.Immutability
import Nocostcoin.Chain.Finality
import Nocostcoin.Chain.Agreement
import Nocostcoin.Chain.ForkChoice
import Nocostcoin.Library.RadixTree
import Nocostcoin.Trie.Bounds
import Nocostcoin.Trie.Refinement
import Nocostcoin.Trie.Uniform
import Nocostcoin.Trie.History
import Nocostcoin.Trie.Lookup
import Nocostcoin.Trie.Root
import Nocostcoin.Trie.Closure
import Nocostcoin.Ownership
import Nocostcoin.TransactionEncoding
import Nocostcoin.Chain.Range
import Nocostcoin.Mempool
import Nocostcoin.Selection
import Nocostcoin.Sync
import Nocostcoin.Node.Loop
import Nocostcoin.Node.Step
import Nocostcoin.Node.Syncing
import Nocostcoin.Batch
import Nocostcoin.Node.Production
import Nocostcoin.Chain.Staking
import Nocostcoin.Chain.OneBlock
import Nocostcoin.Chain.StateRoot
import Nocostcoin.Node.Startup
import Nocostcoin.Node.Pool
import Nocostcoin.Reload
import Nocostcoin.Chain.CrashPoint
import Nocostcoin.Chain.RootHistory
import Nocostcoin.Chain.Tally
import Nocostcoin.Resync
import Nocostcoin.Atomicity
import Nocostcoin.TxRoot
import Nocostcoin.Chain.HeightIndex
import Nocostcoin.Wallet
import Nocostcoin.Commutation
import Nocostcoin.Chain.Redelivery
import Nocostcoin.Node.OwnNonces
import Nocostcoin.Node.Faucet
import Nocostcoin.Chain.Pruning
import Nocostcoin.Library.NumberedLog
import Nocostcoin.Library.PrefixScan
import Nocostcoin.Database.Families
import Nocostcoin.Database.Scans
import Nocostcoin.Database.History
import Nocostcoin.Chain.Indexing
import Nocostcoin.WalletPassword
import Nocostcoin.Chain.Listing
import Nocostcoin.Network.Slashing
import Nocostcoin.Network.Restarts
import Nocostcoin.Network.Voting
import Nocostcoin.Network.Spending
import Nocostcoin.Node.Provenance
import Nocostcoin.Node.Panics
import Nocostcoin.Database.Refinement
import Nocostcoin.Chain.Issuance
import Nocostcoin.WalletSession
import Nocostcoin.Node.Explorer
