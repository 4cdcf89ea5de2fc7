import RaftConsensus.Server

/-!
# The ways through the handlers

Each handler of a server is a function with a few branches.  What is said of a handler is
proved by cases on the way that it takes, and the function is opened here only.
-/

namespace RaftConsensus

namespace Server

variable {s : Server}

/-! ## Elections -/

/-- The ways through the section of `electionTimerLoop`. -/
inductive TimeoutWay (s : Server) : Bool × Server → Prop
  /-- alone, the node is a majority -/
  | alone (hrole : s.role ≠ .leader) (hmaj : s.becomeCandidate.majority ≤ 1) :
      TimeoutWay s (false, s.becomeCandidate.becomeLeader)
  | campaigns (hrole : s.role ≠ .leader) (hmaj : ¬ s.becomeCandidate.majority ≤ 1) :
      TimeoutWay s (true, s.becomeCandidate)

theorem electionTimeout_way {r : Bool × Server} (h : s.electionTimeout = some r) :
    TimeoutWay s r := by
  unfold electionTimeout at h
  split at h
  · exact absurd h (by simp)
  next hrole =>
  dsimp only at h
  split at h
  · next hmaj =>
    rw [← Option.some.inj h]
    exact .alone hrole hmaj
  · next hmaj =>
    rw [← Option.some.inj h]
    exact .campaigns hrole hmaj

/-- The server as it counts one more vote. -/
def countVote (s : Server) : Server := { s with votesReceived := (s.votesReceived + 1) % 2 ^ 64 }

/-- The ways through the section that handles the reply to a request for a vote. -/
inductive VoteReplyWay (s : Server) (electionTerm : ℕ) (reply : RequestVoteReply) : Server → Prop
  | stepsDown (hterm : s.metadata.currentTerm < reply.term) :
      VoteReplyWay s electionTerm reply (s.stepDown reply.term)
  | ignored (hterm : ¬ s.metadata.currentTerm < reply.term) :
      VoteReplyWay s electionTerm reply s
  | won (hterm : ¬ s.metadata.currentTerm < reply.term) (hrole : s.role = .candidate)
      (hsame : s.metadata.currentTerm = electionTerm) (hgranted : reply.voteGranted = true)
      (hmaj : s.countVote.majority ≤ s.countVote.votesReceived) :
      VoteReplyWay s electionTerm reply s.countVote.becomeLeader
  | counted (hterm : ¬ s.metadata.currentTerm < reply.term) (hrole : s.role = .candidate)
      (hsame : s.metadata.currentTerm = electionTerm) (hgranted : reply.voteGranted = true)
      (hmaj : ¬ s.countVote.majority ≤ s.countVote.votesReceived) :
      VoteReplyWay s electionTerm reply s.countVote

theorem handleRequestVoteReply_way {electionTerm : ℕ} {reply : RequestVoteReply} {s' : Server}
    (h : s.handleRequestVoteReply electionTerm reply = s') :
    VoteReplyWay s electionTerm reply s' := by
  rw [← h, handleRequestVoteReply]
  split
  · next hterm => exact .stepsDown hterm
  next hterm =>
  split
  · exact .ignored hterm
  next hcand =>
  obtain ⟨hrole, hsame⟩ := not_or.mp hcand
  split
  · next hgranted =>
    dsimp only
    split
    · next hmaj => exact .won hterm (not_not.mp hrole) (not_not.mp hsame) hgranted hmaj
    · next hmaj => exact .counted hterm (not_not.mp hrole) (not_not.mp hsame) hgranted hmaj
  · exact .ignored hterm

/-! ## Requests of peers -/

/-- Step 2 of `handleRequestVote`. -/
def meetTerm (s : Server) (t : ℕ) : Server := if s.metadata.currentTerm < t then s.stepDown t else s

theorem meetTerm_term {t : ℕ} (h : ¬ t < s.metadata.currentTerm) :
    (s.meetTerm t).metadata.currentTerm = t := by
  unfold meetTerm
  split
  · rfl
  · omega

/-- The ways through `handleRequestVote`. -/
inductive RequestVoteWay (s : Server) (args : RequestVoteArgs) : RequestVoteReply × Server → Prop
  | old (hterm : args.term < s.metadata.currentTerm) :
      RequestVoteWay s args (⟨s.metadata.currentTerm, false⟩, s)
  | granted (hterm : ¬ args.term < s.metadata.currentTerm)
      (hcan : (s.meetTerm args.term).canVote args = true) :
      RequestVoteWay s args (⟨(s.meetTerm args.term).metadata.currentTerm, true⟩,
        (s.meetTerm args.term).grantVote args.candidateId)
  | denied (hterm : ¬ args.term < s.metadata.currentTerm)
      (hcan : ¬ (s.meetTerm args.term).canVote args = true) :
      RequestVoteWay s args (⟨(s.meetTerm args.term).metadata.currentTerm, false⟩,
        s.meetTerm args.term)

theorem handleRequestVote_way {args : RequestVoteArgs} {r : RequestVoteReply × Server}
    (h : s.handleRequestVote args = r) : RequestVoteWay s args r := by
  rw [← h, handleRequestVote]
  split
  · next hterm => exact .old hterm
  next hterm =>
  dsimp only
  rw [← meetTerm]
  split
  · next hcan => exact .granted hterm hcan
  · next hcan => exact .denied hterm hcan

/-- The ways through steps 4 and 5 of `handleAppendEntries`: a log that is new is written. -/
inductive StoreWay (s : Server) (entries : List LogEntry) : Server → Prop
  | same (log : List LogEntry) (hlog : reconcile s.logEntries false entries = some (log, false)) :
      StoreWay s entries { s with logEntries := log }
  | rewritten (log : List LogEntry)
      (hlog : reconcile s.logEntries false entries = some (log, true)) :
      StoreWay s entries (persistLogFull { s with logEntries := log })

theorem storeEntries_way {entries : List LogEntry} {s' : Server}
    (h : s.storeEntries entries = some s') : StoreWay s entries s' := by
  unfold storeEntries at h
  rcases hr : reconcile s.logEntries false entries with _ | ⟨log, _ | _⟩ <;> rw [hr] at h
  · exact absurd h (by simp)
  · rw [← Option.some.inj h]
    exact .same log hr
  · rw [← Option.some.inj h]
    exact .rewritten log hr

/-- The ways through `handleAppendEntries`. -/
inductive AppendEntriesWay (s : Server) (args : AppendEntriesArgs) :
    AppendEntriesReply × Server → Prop
  | old (hterm : args.term < s.metadata.currentTerm) :
      AppendEntriesWay s args (⟨s.metadata.currentTerm, false⟩, s)
  | mismatch (hterm : ¬ args.term < s.metadata.currentTerm)
      (hprev : ¬ (s.recognizeLeader args).prevMatches args = true) :
      AppendEntriesWay s args
        (⟨(s.recognizeLeader args).metadata.currentTerm, false⟩, s.recognizeLeader args)
  | stored (hterm : ¬ args.term < s.metadata.currentTerm)
      (hprev : (s.recognizeLeader args).prevMatches args = true) (s' : Server)
      (hs' : (s.recognizeLeader args).storeEntries args.entries = some s') :
      AppendEntriesWay s args (⟨s'.metadata.currentTerm, true⟩, s'.followCommit args)

theorem handleAppendEntries_way {args : AppendEntriesArgs} {r : AppendEntriesReply × Server}
    (h : s.handleAppendEntries args = some r) : AppendEntriesWay s args r := by
  unfold handleAppendEntries at h
  split at h
  · next hterm =>
    rw [← Option.some.inj h]
    exact .old hterm
  next hterm =>
  dsimp only at h
  split at h
  · next hprev =>
    obtain ⟨s', hs', rfl⟩ := Option.map_eq_some_iff.mp h
    exact .stored hterm hprev s' hs'
  · next hprev =>
    rw [← Option.some.inj h]
    exact .mismatch hterm hprev

/-! ## Replication -/

/-- What a leader knows of its peers' logs, once a peer has stored the entries of `args`. -/
def creditedMatch (s : Server) (peer : ℕ) (args : AppendEntriesArgs) : ℕ → ℕ :=
  if s.matchIndex peer < (args.prevLogIndex + args.entries.length) % 2 ^ 64 then
    Function.update s.matchIndex peer ((args.prevLogIndex + args.entries.length) % 2 ^ 64)
  else s.matchIndex

/-- The leader with the indices of a peer that has accepted a message. -/
def withCredit (s : Server) (peer : ℕ) (args : AppendEntriesArgs) : Server :=
  { s with
    matchIndex := s.creditedMatch peer args
    nextIndex := Function.update s.nextIndex peer ((s.creditedMatch peer args peer + 1) % 2 ^ 64) }

/-- **What a success does**: the peer is credited, and the leader commits what it can. -/
theorem creditPeer_eq (s : Server) (peer : ℕ) (args : AppendEntriesArgs) :
    s.creditPeer peer args = (s.withCredit peer args).advanceCommit := by
  unfold creditPeer withCredit creditedMatch
  dsimp only
  split <;> rfl

theorem creditedMatch_self (s : Server) (peer : ℕ) (args : AppendEntriesArgs) :
    s.creditedMatch peer args peer =
      max (s.matchIndex peer) ((args.prevLogIndex + args.entries.length) % 2 ^ 64) := by
  unfold creditedMatch
  split
  · next hlt => rw [Function.update_self, max_eq_right hlt.le]
  · next hge => rw [max_eq_left (Nat.not_lt.mp hge)]

theorem creditedMatch_of_ne (s : Server) {peer q : ℕ} (hq : q ≠ peer) (args : AppendEntriesArgs) :
    s.creditedMatch peer args q = s.matchIndex q := by
  unfold creditedMatch
  split
  · exact Function.update_of_ne hq ..
  · rfl

/-- The server as it has reached a peer. -/
def reached (s : Server) (peer : ℕ) : Server :=
  { s with peerUp := Function.update s.peerUp peer true }

/-- The ways through the section that handles the reply to an AppendEntries. -/
inductive AppendReplyWay (s : Server) (peer : ℕ) (args : AppendEntriesArgs)
    (reply : AppendEntriesReply) : Server → Prop
  | stepsDown (hterm : s.metadata.currentTerm < reply.term) :
      AppendReplyWay s peer args reply ((s.reached peer).stepDown reply.term)
  | ignored (hterm : ¬ s.metadata.currentTerm < reply.term) :
      AppendReplyWay s peer args reply (s.reached peer)
  | credited (hterm : ¬ s.metadata.currentTerm < reply.term) (hrole : s.role = .leader)
      (hsame : s.metadata.currentTerm = args.term) (hsuccess : reply.success = true) :
      AppendReplyWay s peer args reply ((s.reached peer).creditPeer peer args)
  | backed (hterm : ¬ s.metadata.currentTerm < reply.term) (hrole : s.role = .leader)
      (hsame : s.metadata.currentTerm = args.term) (hsuccess : reply.success = false) :
      AppendReplyWay s peer args reply
        { s.reached peer with
          nextIndex := Function.update s.nextIndex peer (s.nextIndex peer - 1) }

theorem handleAppendEntriesReply_way {peer : ℕ} {args : AppendEntriesArgs}
    {reply : AppendEntriesReply} {s' : Server}
    (h : s.handleAppendEntriesReply peer args reply = s') :
    AppendReplyWay s peer args reply s' := by
  rw [← h, handleAppendEntriesReply]
  dsimp only
  split
  · next hterm => exact .stepsDown hterm
  next hterm =>
  split
  · exact .ignored hterm
  next hlead =>
  obtain ⟨hrole, hsame⟩ := not_or.mp hlead
  split
  · next hsuccess => exact .credited hterm (not_not.mp hrole) (not_not.mp hsame) hsuccess
  next hsuccess =>
  split
  · exact .backed hterm (not_not.mp hrole) (not_not.mp hsame) (Bool.eq_false_iff.mpr hsuccess)
  · exact .ignored hterm

/-- A peer that accepts is credited. -/
theorem handleAppendEntriesReply_accepted (peer : ℕ) {args : AppendEntriesArgs}
    {reply : AppendEntriesReply} (hrole : s.role = .leader)
    (hreply : reply.term ≤ s.metadata.currentTerm) (hterm : args.term = s.metadata.currentTerm)
    (hsuccess : reply.success = true) :
    s.handleAppendEntriesReply peer args reply =
      ((s.reached peer).withCredit peer args).advanceCommit := by
  rw [← creditPeer_eq, handleAppendEntriesReply]
  dsimp only
  rw [if_neg (Nat.not_lt.mpr hreply), if_neg (by simp [hrole, hterm]), if_pos hsuccess]
  rfl

/-- For a peer that refuses the leader goes back by one entry. -/
theorem handleAppendEntriesReply_refused {peer : ℕ} {args : AppendEntriesArgs}
    {reply : AppendEntriesReply} (hrole : s.role = .leader)
    (hreply : reply.term ≤ s.metadata.currentTerm) (hterm : args.term = s.metadata.currentTerm)
    (hfail : reply.success = false) (hnext : 1 < s.nextIndex peer) :
    s.handleAppendEntriesReply peer args reply =
      { s.reached peer with
        nextIndex := Function.update s.nextIndex peer (s.nextIndex peer - 1) } := by
  rw [handleAppendEntriesReply]
  dsimp only
  rw [if_neg (Nat.not_lt.mpr hreply), if_neg (by simp [hrole, hterm]), if_neg (by simp [hfail]),
    if_pos hnext]
  rfl

/-! ## Proposals -/

/-- **What a proposal does**: a leader appends its entry, and commits what it can. -/
theorem propose_eq {request : Request} {w : Waiter} {s' : Server}
    (h : s.propose request = some (w, s')) :
    s.role = .leader ∧ w = ⟨request, s.nextLogIndex, s.metadata.currentTerm⟩ ∧
      s' = (s.appendEntry w.entry).advanceCommit := by
  unfold propose at h
  split at h
  · exact absurd h (by simp)
  · next hrole =>
    obtain ⟨rfl, rfl⟩ := Prod.mk.inj (Option.some.inj h)
    exact ⟨not_not.mp hrole, rfl, rfl⟩

end Server

end RaftConsensus
