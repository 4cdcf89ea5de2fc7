import RaftConsensus.Rpc
import RaftConsensus.StateMachine
import RaftConsensus.Storage

/-!
# The server (`server.cpp`)

Everything the source does to a server it does in a *critical section*: a stretch of one
thread during which it holds `raft_mutex`.  Each function below is one such stretch, or a
helper that is called inside one.  A thread that releases the lock and takes it again, as
`sendRequestVoteToAll` and `replicationLoop` do around a call to a peer and
`proposeAndWait` does while it waits, is cut into one function for each stretch.

A section changes the memory of the server and calls storage functions.  Their results are
ignored throughout the source, so what a section does to memory does not depend on them.
The sections therefore *collect* their storage calls, in the order in which the source
makes them, in the field `effects`; between the calls stand marks for the moments that
statements about runs speak of (a vote, an election won, an advance of the commit index, an
entry applied).  `Node` carries the calls out.

Numbers of type `uint64_t` are natural numbers, and every addition of the source is cut to
64 bits.  The index arithmetic of `vector` is unbounded.  An access outside `log_entries`
is `none`.
-/

namespace RaftConsensus

/-- `enum Role`. -/
inductive Role
  | follower
  | candidate
  | leader
  deriving DecidableEq, Repr

/-- What a critical section does besides changing memory, in order: storage calls and marks. -/
inductive Effect
  | updateMetaData (m : MetaData)
  | writelog (e : LogEntry)
  | rewriteLog (es : List LogEntry)
  | truncateLogFile (validBytes : ℕ)
  | createMetaData
  | createLogs
  /-- a vote for a candidate in a term, just persisted -/
  | votedFor (candidate term : ℕ)
  /-- a candidacy in a term, just persisted; it is a vote for the node itself -/
  | candidate (term : ℕ)
  /-- `becomeLeader` entered in a term, with the log at that moment -/
  | becomeLeader (term : ℕ) (log : List LogEntry)
  /-- `advanceCommit` raised the commit index of the leader of a term, whose log is given -/
  | advanceCommit (term commitIndex : ℕ) (log : List LogEntry)
  /-- `handleAppendEntries` raised the commit index of a follower -/
  | followCommit (commitIndex : ℕ)
  /-- a command applied to the state machine -/
  | applied (index : ℕ) (command : Command)
  deriving DecidableEq, Repr

/-- `class RaftServer`, less its sockets and timers. -/
structure Server where
  nodeId : ℕ
  peers : List ℕ
  role : Role
  stateMachine : KVStateMachine
  metadata : MetaData
  logEntries : List LogEntry
  running : Bool
  votesReceived : ℕ
  currentLeaderId : ℕ
  nextIndex : ℕ → ℕ
  matchIndex : ℕ → ℕ
  peerUp : ℕ → Bool
  effects : List Effect

namespace Server

/-- The constructor. -/
def new (nodeId : ℕ) (peers : List ℕ) : Server where
  nodeId := nodeId
  peers := peers
  role := .follower
  stateMachine := .empty
  metadata := .initial
  logEntries := []
  running := false
  votesReceived := 0
  currentLeaderId := 0
  nextIndex _ := 0
  matchIndex _ := 0
  peerUp _ := false
  effects := []

/-- Note a storage call or a mark. -/
def emit (s : Server) (e : Effect) : Server := { s with effects := s.effects ++ [e] }

/-- The current term. -/
abbrev currentTerm (s : Server) : ℕ := s.metadata.currentTerm

/-- The commit index. -/
abbrev commitIndex (s : Server) : ℕ := s.metadata.commitIndex

/-- `majority`. -/
def majority (s : Server) : ℕ := (s.peers.length + 1) / 2 + 1

/-- `getLastLogIndex`. -/
def getLastLogIndex (s : Server) : ℕ := (s.logEntries.getLast?.map LogEntry.index).getD 0

/-- `getLastLogTerm`. -/
def getLastLogTerm (s : Server) : ℕ := (s.logEntries.getLast?.map LogEntry.term).getD 0

/-- `termAt`: `0` at index `0` and beyond the end. -/
def termAt (s : Server) (index : ℕ) : ℕ :=
  if index = 0 then 0 else (s.logEntries[index - 1]?.map LogEntry.term).getD 0

/-- `persistLogFull`. -/
def persistLogFull (s : Server) : Server := s.emit (.rewriteLog s.logEntries)

/-- The call `updateMetaData(metadata)`. -/
def persistMetaData (s : Server) : Server := s.emit (.updateMetaData s.metadata)

/-- `stepDown`. -/
def stepDown (s : Server) (newTerm : ℕ) : Server :=
  persistMetaData
    { s with
      role := .follower
      metadata := { s.metadata with currentTerm := newTerm, votedFor := 0 }
      currentLeaderId := 0 }

/-- One turn of `applyCommitted` for the entry `e`.  The index is at most the commit index, so
the addition does not wrap. -/
def applyEntry (s : Server) (e : LogEntry) : Server :=
  let idx := s.metadata.lastApplied + 1
  { s with
    stateMachine := s.stateMachine.apply e.command
    metadata := { s.metadata with lastApplied := idx } }.emit (.applied idx e.command)

/-- The loop of `applyCommitted`: `fuel` turns at most. -/
def applyLoop : ℕ → Server → Server
  | 0, s => s
  | fuel + 1, s =>
    if s.metadata.lastApplied < s.metadata.commitIndex then
      match s.logEntries[s.metadata.lastApplied]? with
      | none => s
      | some e => applyLoop fuel (s.applyEntry e)
    else s

/-- `applyCommitted`.  Each turn raises `lastApplied`, so the distance to the commit index is
fuel enough. -/
def applyCommitted (s : Server) : Server :=
  let s' := applyLoop (s.metadata.commitIndex - s.metadata.lastApplied) s
  if s'.metadata.lastApplied ≠ s.metadata.lastApplied then s'.persistMetaData else s'

/-- The number of nodes that the leader knows to hold its log up to `n`, itself included. -/
def replicas (s : Server) (n : ℕ) : ℕ := 1 + s.peers.countP fun p => decide (n ≤ s.matchIndex p)

/-- The loop of `advanceCommit`, from `N` down to the commit index. -/
def commitScan (s : Server) : ℕ → Option ℕ
  | 0 => none
  | n + 1 =>
    if n + 1 ≤ s.metadata.commitIndex then none
    else if s.termAt (n + 1) ≠ s.metadata.currentTerm then commitScan s n
    else if s.majority ≤ s.replicas (n + 1) then some (n + 1)
    else commitScan s n

/-- `advanceCommit`. -/
def advanceCommit (s : Server) : Server :=
  if s.role ≠ .leader then s
  else
    match s.commitScan s.getLastLogIndex with
    | none => s
    | some n =>
      applyCommitted ({ s with metadata := { s.metadata with commitIndex := n } }.emit
        (.advanceCommit s.metadata.currentTerm n s.logEntries))

/-- `log_entries.push_back(e); writelog(e)`. -/
def appendEntry (s : Server) (e : LogEntry) : Server :=
  { s with logEntries := s.logEntries ++ [e] }.emit (.writelog e)

/-- The index of the next entry. -/
def nextLogIndex (s : Server) : ℕ := (s.getLastLogIndex + 1) % 2 ^ 64

/-- The entry that `becomeLeader` appends. -/
def noop (s : Server) : LogEntry :=
  ⟨s.metadata.currentTerm, s.nextLogIndex, { Command.default with operation := 3 }⟩

/-- The loop over the peers in `becomeLeader`. -/
def resetPeers (s : Server) : Server :=
  { s with
    nextIndex := fun p => if p ∈ s.peers then s.nextLogIndex else s.nextIndex p
    matchIndex := fun p => if p ∈ s.peers then 0 else s.matchIndex p
    peerUp := fun p => if p ∈ s.peers then false else s.peerUp p }

/-- The first two lines of `becomeLeader`. -/
def takeLead (s : Server) : Server :=
  { s.emit (.becomeLeader s.metadata.currentTerm s.logEntries) with
    role := .leader, currentLeaderId := s.nodeId }

/-- `becomeLeader`. -/
def becomeLeader (s : Server) : Server :=
  advanceCommit (s.takeLead.appendEntry s.takeLead.noop).resetPeers

/-! ## Requests of peers -/

/-- The vote that `handleRequestVote` gives. -/
def grantVote (s : Server) (candidateId : ℕ) : Server :=
  ({ s with metadata := { s.metadata with votedFor := candidateId } }.persistMetaData).emit
    (.votedFor candidateId s.metadata.currentTerm)

/-- The two conditions of `handleRequestVote`: the vote is free, and the candidate's log is at
least as up to date as ours. -/
def canVote (s : Server) (args : RequestVoteArgs) : Bool :=
  (s.metadata.votedFor = 0 || s.metadata.votedFor = args.candidateId) &&
    (s.getLastLogTerm < args.lastLogTerm ||
      (args.lastLogTerm = s.getLastLogTerm && s.getLastLogIndex ≤ args.lastLogIndex))

/-- `handleRequestVote`. -/
def handleRequestVote (s : Server) (args : RequestVoteArgs) : RequestVoteReply × Server :=
  if args.term < s.metadata.currentTerm then (⟨s.metadata.currentTerm, false⟩, s)     -- step 1
  else
    let s := if s.metadata.currentTerm < args.term then s.stepDown args.term else s   -- step 2
    if s.canVote args then (⟨s.metadata.currentTerm, true⟩, s.grantVote args.candidateId)
    else (⟨s.metadata.currentTerm, false⟩, s)

/-- Steps 4 and 5 of `handleAppendEntries`: the log after the entries, and whether it
changed.  An entry with index `0` makes the source read `log_entries[-1]`. -/
def reconcile : List LogEntry → Bool → List LogEntry → Option (List LogEntry × Bool)
  | log, changed, [] => some (log, changed)
  | log, changed, entry :: entries =>
    if entry.index ≤ log.length then
      if entry.index = 0 then none
      else if (log[entry.index - 1]?.map LogEntry.term) ≠ some entry.term then
        reconcile (log.take (entry.index - 1) ++ [entry]) true entries
      else reconcile log changed entries
    else reconcile (log ++ [entry]) true entries

/-- Step 2 of `handleAppendEntries`: recognise the leader of the term. -/
def recognizeLeader (s : Server) (args : AppendEntriesArgs) : Server :=
  let s := if s.metadata.currentTerm < args.term then
      persistMetaData
        { s with metadata := { s.metadata with currentTerm := args.term, votedFor := 0 } }
    else s
  { s with role := .follower, currentLeaderId := args.leaderId }

/-- Step 3 of `handleAppendEntries`: whether the log has the entry that the new ones follow. -/
def prevMatches (s : Server) (args : AppendEntriesArgs) : Bool :=
  args.prevLogIndex = 0 ||
    (args.prevLogIndex ≤ s.logEntries.length && s.termAt args.prevLogIndex = args.prevLogTerm)

/-- Steps 4 and 5 of `handleAppendEntries`, with the write that follows them. -/
def storeEntries (s : Server) (entries : List LogEntry) : Option Server :=
  match reconcile s.logEntries false entries with
  | none => none
  | some (log, true) => some (persistLogFull { s with logEntries := log })
  | some (log, false) => some { s with logEntries := log }

/-- Step 6 of `handleAppendEntries`: follow the leader's commit index. -/
def followCommit (s : Server) (args : AppendEntriesArgs) : Server :=
  if s.metadata.commitIndex < args.leaderCommit then
    let lastNew := (args.prevLogIndex + args.entries.length) % 2 ^ 64
    let newCommit := min (min args.leaderCommit lastNew) s.getLastLogIndex
    if s.metadata.commitIndex < newCommit then
      applyCommitted
        ({ s with metadata := { s.metadata with commitIndex := newCommit } }.emit
          (.followCommit newCommit))
    else s
  else s

/-- `handleAppendEntries`; `none` is an access outside the log. -/
def handleAppendEntries (s : Server) (args : AppendEntriesArgs) :
    Option (AppendEntriesReply × Server) :=
  if args.term < s.metadata.currentTerm then some (⟨s.metadata.currentTerm, false⟩, s)
  else
    let s := s.recognizeLeader args
    if s.prevMatches args then
      (s.storeEntries args.entries).map fun s' =>
        (⟨s'.metadata.currentTerm, true⟩, s'.followCommit args)
    else some (⟨s.metadata.currentTerm, false⟩, s)

/-! ## Elections -/

/-- The candidacy in `electionTimerLoop`. -/
def becomeCandidate (s : Server) : Server :=
  let term := (s.metadata.currentTerm + 1) % 2 ^ 64
  (persistMetaData
    { s with
      role := .candidate
      metadata := { s.metadata with currentTerm := term, votedFor := s.nodeId }
      currentLeaderId := 0
      votesReceived := 1 }).emit (.candidate term)

/-- The section of `electionTimerLoop` in which the deadline has passed.  The Boolean says
that the thread goes on to `sendRequestVoteToAll`. -/
def electionTimeout (s : Server) : Option (Bool × Server) :=
  if s.role = .leader then none
  else
    let s := s.becomeCandidate
    if s.majority ≤ 1 then some (false, s.becomeLeader) else some (true, s)

/-- The request that `sendRequestVoteToAll` builds. -/
def requestVoteArgs (s : Server) : RequestVoteArgs :=
  ⟨s.metadata.currentTerm, s.nodeId, s.getLastLogIndex, s.getLastLogTerm⟩

/-- The section of `sendRequestVoteToAll` that handles a reply. -/
def handleRequestVoteReply (s : Server) (electionTerm : ℕ) (reply : RequestVoteReply) : Server :=
  if s.metadata.currentTerm < reply.term then s.stepDown reply.term
  else if s.role ≠ .candidate ∨ s.metadata.currentTerm ≠ electionTerm then s
  else if reply.voteGranted then
    let s := { s with votesReceived := (s.votesReceived + 1) % 2 ^ 64 }
    if s.majority ≤ s.votesReceived then s.becomeLeader else s
  else s

/-! ## Replication -/

/-- The request that `replicationLoop` builds for a peer. -/
def appendEntriesArgs (s : Server) (peer : ℕ) : Option AppendEntriesArgs :=
  if s.role ≠ .leader then none
  else
    let ni := max 1 (s.nextIndex peer)
    some
      { term := s.metadata.currentTerm
        leaderId := s.nodeId
        prevLogIndex := ni - 1
        prevLogTerm := s.termAt (ni - 1)
        entries := s.logEntries.drop (ni - 1)
        leaderCommit := s.metadata.commitIndex }

/-- The section of `replicationLoop` after a failed call. -/
def contactFailed (s : Server) (peer : ℕ) : Server :=
  { s with peerUp := Function.update s.peerUp peer false }

/-- The branch of `replicationLoop` for a successful reply.  `newMatch` counts the entries
that were *sent*. -/
def creditPeer (s : Server) (peer : ℕ) (args : AppendEntriesArgs) : Server :=
  let newMatch := (args.prevLogIndex + args.entries.length) % 2 ^ 64
  let s := if s.matchIndex peer < newMatch then
      { s with matchIndex := Function.update s.matchIndex peer newMatch }
    else s
  advanceCommit
    { s with nextIndex := Function.update s.nextIndex peer ((s.matchIndex peer + 1) % 2 ^ 64) }

/-- The section of `replicationLoop` that handles the reply to `args`. -/
def handleAppendEntriesReply (s : Server) (peer : ℕ) (args : AppendEntriesArgs)
    (reply : AppendEntriesReply) : Server :=
  let s := { s with peerUp := Function.update s.peerUp peer true }
  if s.metadata.currentTerm < reply.term then s.stepDown reply.term
  else if s.role ≠ .leader ∨ s.metadata.currentTerm ≠ args.term then s
  else if reply.success then s.creditPeer peer args
  else if 1 < s.nextIndex peer then
    { s with nextIndex := Function.update s.nextIndex peer (s.nextIndex peer - 1) }
  else s

end Server

/-! ## Clients -/

/-- What a client is told. -/
inductive Answer
  | unknownLeader
  | notLeader (leader : ℕ)
  | shuttingDown
  | commitTimeout
  | value (v : Bytes)
  | notFound
  | ok (index term : ℕ)
  deriving DecidableEq, Repr

/-- The bytes of an ASCII text. -/
def ascii (s : String) : Bytes := s.toUTF8.toList

/-- The line sent to the client. -/
def Answer.text : Answer → Bytes
  | unknownLeader => ascii "UNKNOWN_LEADER\n"
  | notLeader leader => ascii ("NOT_LEADER leader=" ++ toString leader ++ "\n")
  | shuttingDown => ascii "ERR: shutting down\n"
  | commitTimeout => ascii "ERR: commit timeout (no majority?)\n"
  | value v => v ++ ascii "\n"
  | notFound => ascii "NOT_FOUND\n"
  | ok index term => ascii ("OK (committed at index " ++ toString index ++ " in term " ++
      toString term ++ ")\n")

/-- A client command. -/
inductive Request
  | put (key value : Bytes)
  | delete (key : Bytes)
  | get (key : Bytes)
  deriving DecidableEq, Repr

/-- The commands of `handlePut`, `handleDelete` and `handleGet`; the lengths are cut to 16
bits. -/
def Request.command : Request → Command
  | put key value => ⟨1, key.length % 65536, value.length % 65536, key, value⟩
  | delete key => ⟨2, key.length % 65536, 0, key, []⟩
  | get _ => { Command.default with operation := 3 }

/-- A request that fits makes a well-formed command. -/
theorem Request.wellFormed_command {r : Request} (h : r.command.Fits) : r.command.WellFormed := by
  rcases r with ⟨key, value⟩ | key | key
  · exact ⟨Nat.mod_eq_of_lt h.1, Nat.mod_eq_of_lt h.2, h.1, h.2⟩
  · exact ⟨Nat.mod_eq_of_lt h.1, rfl, h.1, h.2⟩
  · exact ⟨rfl, rfl, h.1, h.2⟩

/-- A thread inside `proposeAndWait`: the request, and `idx` and `term` of its entry. -/
structure Waiter where
  request : Request
  index : ℕ
  term : ℕ
  deriving DecidableEq, Repr

/-- The entry that the thread appended. -/
def Waiter.entry (w : Waiter) : LogEntry := ⟨w.term, w.index, w.request.command⟩

namespace Server

/-- `notLeaderMsg`. -/
def notLeaderMsg (s : Server) : Answer :=
  if s.currentLeaderId = 0 then .unknownLeader else .notLeader s.currentLeaderId

/-- `proposeAndWait` up to the wait; `none` if the server is not the leader. -/
def propose (s : Server) (request : Request) : Option (Waiter × Server) :=
  if s.role ≠ .leader then none
  else
    let w : Waiter := ⟨request, s.nextLogIndex, s.metadata.currentTerm⟩
    some (w, advanceCommit (s.appendEntry w.entry))

/-- The predicate on which `proposeAndWait` waits. -/
def waitOver (s : Server) (w : Waiter) : Bool :=
  !s.running || s.role ≠ .leader || w.index ≤ s.metadata.commitIndex

/-- `proposeAndWait` after the wait. -/
def answer (s : Server) (w : Waiter) : Answer :=
  if !s.running then .shuttingDown
  else if s.metadata.commitIndex < w.index ∨ s.role ≠ .leader then
    if s.role ≠ .leader then s.notLeaderMsg else .commitTimeout
  else
    match w.request with
    | .get key =>
      if s.stateMachine.has key then .value (s.stateMachine.get key) else .notFound
    | _ => .ok w.index w.term

/-! ## Recovery -/

/-- The replay in `recover`, which starts with `lastApplied = 0`.  The source sets
`lastApplied` once, at the end; nobody reads it in between. -/
def replayCommitted (s : Server) : Server :=
  (s.logEntries.take s.metadata.commitIndex).foldl applyEntry s

end Server

/-- The files that `initStorage` creates. -/
def initStorage (files : Files) : List Effect :=
  (if files .metadata = none then [.createMetaData] else []) ++
    (if files .logs = none then [.createLogs] else [])

/-- `recover`, on the files as `initStorage` leaves them. -/
def recover (nodeId : ℕ) (peers : List ℕ) (files : Files) : Server :=
  let s := Server.new nodeId peers
  let metadata := getMetaData files
  let (logEntries, validBytes) := readLogs files
  let s := if validBytes < ((files .logs).getD []).length then
      s.emit (.truncateLogFile validBytes) else s
  let commitIndex := min metadata.commitIndex logEntries.length
  { s with
    logEntries := logEntries
    metadata := { metadata with
      commitIndex := commitIndex, lastApplied := 0 } }.replayCommitted.persistMetaData

end RaftConsensus
