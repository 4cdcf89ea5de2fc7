import RaftConsensus.Library.Runs
import RaftConsensus.Library.BigEndian
import RaftConsensus.Library.PrefixCode
import RaftConsensus.Library.Streams
import RaftConsensus.Protocol.LogMatching
import RaftConsensus.Protocol.LeaderCompleteness
import RaftConsensus.Command
import RaftConsensus.Log
import RaftConsensus.Rpc
import RaftConsensus.StateMachine
import RaftConsensus.Server
import RaftConsensus.Node
import RaftConsensus.Cluster
import RaftConsensus.Ballot
import RaftConsensus.Recovery
import RaftConsensus.Election
import RaftConsensus.ElectionSafety
import RaftConsensus.DiskLog
import RaftConsensus.Exchange
import RaftConsensus.Arrivals
import RaftConsensus.Faults
import RaftConsensus.Durability
import RaftConsensus.Protocol.Locality
import RaftConsensus.Refinement
import RaftConsensus.Simulation
import RaftConsensus.Sections
import RaftConsensus.Safety
import RaftConsensus.Proposals
import RaftConsensus.Clients
import RaftConsensus.CommitRule
import RaftConsensus.FigureTwo
import RaftConsensus.Redelivery
import RaftConsensus.Backtracking
import RaftConsensus.PeerInput
import RaftConsensus.CrashAtomic
import RaftConsensus.Candidacy
import RaftConsensus.Redirect
import RaftConsensus.AppliedPrefix
import RaftConsensus.RaftClient
import RaftConsensus.Attempts
import RaftConsensus.Decoder
import RaftConsensus.Burst
import RaftConsensus.AnyDisk
import RaftConsensus.ReadFaults
import RaftConsensus.Appends
import RaftConsensus.CommandLine
import RaftConsensus.Dump
import RaftConsensus.Wakeups
import RaftConsensus.Sockets
import RaftConsensus.Replies
import RaftConsensus.Arguments
import RaftConsensus.Quorums
import RaftConsensus.UnitTests
import RaftConsensus.ClientThread
import RaftConsensus.Framing
import RaftConsensus.Library.Processor
import RaftConsensus.Assembly
import RaftConsensus.Holdings
import RaftConsensus.Origins
import RaftConsensus.Library.Linearizability
import RaftConsensus.Linearizability
import RaftConsensus.LogShape
import RaftConsensus.LeftBehind
import RaftConsensus.CatchingUp
import RaftConsensus.Recoverability
import RaftConsensus.FindingLeader
import RaftConsensus.Wire
import RaftConsensus.WireRefinement
import RaftConsensus.Deployment
import RaftConsensus.Timers
import RaftConsensus.Interrupted
