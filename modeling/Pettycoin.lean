import Pettycoin.Protocol
import Pettycoin.Tx
import Pettycoin.State
import Pettycoin.Lib.Merkle
import Pettycoin.Lib.Forest
import Pettycoin.Lib.Subtree
import Pettycoin.Lib.KeepBest
import Pettycoin.Lib.PosixFile
import Pettycoin.Shard
import Pettycoin.Chain
import Pettycoin.Tree
import Pettycoin.Heads
import Pettycoin.HeadsRun
import Pettycoin.IdealHash
import Pettycoin.CheckChains
import Pettycoin.MerkleProof
import Pettycoin.Doublespends
import Pettycoin.Complained
import Pettycoin.NoTrace
import Pettycoin.NodeHeads
import Pettycoin.ReorgRun
import Pettycoin.Difficulty
import Pettycoin.Claims
import Pettycoin.Todo
import Pettycoin.MarshalBlock
import Pettycoin.Lib.InsertLog
import Pettycoin.Lib.Novelty
import Pettycoin.Generate
import Pettycoin.Generating
import Pettycoin.Mining
import Pettycoin.Gossip
import Pettycoin.GossipSteps
import Pettycoin.GossipRun
import Pettycoin.Blockfile
import Pettycoin.PrevTxhashes
import Pettycoin.Welcome
import Pettycoin.Sync
import Pettycoin.Lib.Ascending
import Pettycoin.Slots
import Pettycoin.TxOrder
import Pettycoin.TxShard
import Pettycoin.Horizon
import Pettycoin.Restart
import Pettycoin.DropPending
import Pettycoin.Sighash
import Pettycoin.TxAccess
import Pettycoin.BlockPacket
import Pettycoin.BlockIdentity
import Pettycoin.TxCompare
import Pettycoin.Retarget
import Pettycoin.ExactAmounts
import Pettycoin.InputRecords
import Pettycoin.Lookups
import Pettycoin.Filling
import Pettycoin.Resolving
import Pettycoin.Loading
import Pettycoin.Joining
import Pettycoin.StepTowards
import Pettycoin.Lib.Sorting
import Pettycoin.Timestamps
import Pettycoin.Features
import Pettycoin.Children
import Pettycoin.Interests
import Pettycoin.PacketIo
import Pettycoin.Lib.Positional
import Pettycoin.Base58
import Pettycoin.ScaledTargets
import Pettycoin.Understood
import Pettycoin.ComplaintPackets
import Pettycoin.OneSixteenth
import Pettycoin.FeatureVotes
import Pettycoin.Hex
import Pettycoin.Lib.Preorder
import Pettycoin.JsonTokens
import Pettycoin.Lib.SlotTable
import Pettycoin.PeerCache
import Pettycoin.Listtransactions
import Pettycoin.Located
import Pettycoin.Provable
import Pettycoin.Replies
import Pettycoin.JsonConnection
import Pettycoin.HtableRuns
