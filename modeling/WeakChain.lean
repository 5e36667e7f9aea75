import WeakChain.Cnsss.BadBatch
import WeakChain.Cnsss.Basic
import WeakChain.Cnsss.BlkHash
import WeakChain.Cnsss.Chain
import WeakChain.Cnsss.Custody
import WeakChain.Cnsss.Executor
import WeakChain.Cnsss.HumanReadable
import WeakChain.Cnsss.LightExecutor
import WeakChain.Cnsss.ListenToOne
import WeakChain.Cnsss.Overtaking
import WeakChain.Cnsss.Sealer
import WeakChain.Cnsss.Selection
import WeakChain.Codec.Acn
import WeakChain.Codec.ExecBlk
import WeakChain.Codec.Receipt
import WeakChain.Codec.Tx
import WeakChain.Core.Acn
import WeakChain.Core.Blk
import WeakChain.Core.Bytes
import WeakChain.Core.Codec
import WeakChain.Core.External
import WeakChain.Core.Json
import WeakChain.Core.Tx
import WeakChain.Evm.Analysis
import WeakChain.Evm.Baseline
import WeakChain.Evm.Cache
import WeakChain.Evm.Calls
import WeakChain.Evm.Counter
import WeakChain.Evm.Create
import WeakChain.Evm.Division
import WeakChain.Evm.Effects
import WeakChain.Evm.Execution
import WeakChain.Evm.Executor
import WeakChain.Evm.Gas
import WeakChain.Evm.Host
import WeakChain.Evm.Instructions
import WeakChain.Evm.Intx
import WeakChain.Evm.Nesting
import WeakChain.Evm.Opcode
import WeakChain.Evm.Permission
import WeakChain.Evm.Reciprocal
import WeakChain.Evm.Safety
import WeakChain.Evm.Semantics
import WeakChain.Exec.BlkExecutor
import WeakChain.Exec.Commit
import WeakChain.Exec.Deploy
import WeakChain.Exec.Div2Executor
import WeakChain.Exec.History
import WeakChain.Exec.Overlay
import WeakChain.Exec.PyArgs
import WeakChain.Exec.PyFailure
import WeakChain.Exec.PyResult
import WeakChain.Exec.PyScript
import WeakChain.Exec.PyVerifier
import WeakChain.Exec.Reboot
import WeakChain.Exec.Restore
import WeakChain.Exec.Storage
import WeakChain.Lib.Batch
import WeakChain.Lib.Dialogue
import WeakChain.Lib.HashChain
import WeakChain.Lib.HashMap
import WeakChain.Lib.Keccak
import WeakChain.Lib.KeyValues
import WeakChain.Lib.KeywordCall
import WeakChain.Lib.LongDivision
import WeakChain.Lib.Pipeline
import WeakChain.Lib.Run
import WeakChain.Lib.Search
import WeakChain.Lib.Tally
import WeakChain.Lib.Traverse
import WeakChain.Lib.Wire
import WeakChain.Lib.Writes
import WeakChain.Net.Datagram
import WeakChain.Net.Query
import WeakChain.Net.Sender
import WeakChain.Net.SignedData
import WeakChain.Net.Udp
import WeakChain.Pool.Mempool
import WeakChain.Pool.Order
import WeakChain.Raft.Ballot
import WeakChain.Raft.Election
import WeakChain.Raft.Execute
import WeakChain.Raft.Node
import WeakChain.Raft.Vote
import WeakChain.Rbft.Admission
import WeakChain.Rbft.Ballots
import WeakChain.Rbft.Certificate
import WeakChain.Rbft.Cluster
import WeakChain.Rbft.Duplicates
import WeakChain.Rbft.Epoch
import WeakChain.Rbft.Handover
import WeakChain.Rbft.Membership
import WeakChain.Rbft.Network
import WeakChain.Rbft.Newcomer
import WeakChain.Rbft.Node
import WeakChain.Rbft.Once
import WeakChain.Rbft.Order
import WeakChain.Rbft.Primary
import WeakChain.Rbft.Replay
import WeakChain.Rbft.Role
import WeakChain.Rbft.Sync
import WeakChain.Rbft.Validity
import WeakChain.Rbft.ViewChange
import WeakChain.Rpc.AddTxs
import WeakChain.Rpc.Formats
import WeakChain.Rpc.Latest
import WeakChain.Rpc.Lookup
import WeakChain.Rpc.Spelling
import WeakChain.Rpc.TxVerifier
