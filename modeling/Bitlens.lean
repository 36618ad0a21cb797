import Bitlens.ChainIndex
import Bitlens.BlockDelivery
import Bitlens.Batching
import Bitlens.HeaderTable
import Bitlens.FetchedFlag
import Bitlens.BatchedWrites
import Bitlens.Dependencies
import Bitlens.ParserDemands
import Bitlens.BlockServing
import Bitlens.WireRoundTrip
import Bitlens.TargetRange
import Bitlens.WorkQueue
import Bitlens.JobSelection
import Bitlens.AppliedBlocks
import Bitlens.AddressTotals
import Bitlens.AddressText
import Bitlens.AddressPages
import Bitlens.AddressDeltas
import Bitlens.AnalysisPaths
import Bitlens.Counterparties
import Bitlens.HeaderAnswers
import Bitlens.Retarget
import Bitlens.HeaderPow
import Bitlens.Locator
import Bitlens.MerkleTree
import Bitlens.WitnessCommitment
import Bitlens.TxWire
import Bitlens.SigopCost
import Bitlens.StoredRecords
import Bitlens.TxWeight
import Bitlens.SigopTotality
import Bitlens.ArenaAllocation
import Bitlens.ApplicationOrder
import Bitlens.PeerSelection
import Bitlens.MinerPages
import Bitlens.ChecksumBan
import Bitlens.StatsCache
import Bitlens.FrontPageUpdate
import Bitlens.Handshake
import Bitlens.VarintCodec
import Bitlens.CompactTarget
import Bitlens.ScriptBuilding
import Bitlens.DownloadEnd
import Bitlens.HeaderPaging
import Bitlens.SessionAnswers
import Bitlens.DispatchDrains
import Bitlens.ReorgRecords
import Bitlens.TxPage
import Bitlens.CatchUp
