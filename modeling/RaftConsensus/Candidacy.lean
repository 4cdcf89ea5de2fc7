import RaftConsensus.Safety

/-!
# Who asks for votes

`electionTimerLoop` makes its node a candidate and releases the lock;
`sendRequestVoteToAll` takes the lock again and builds the request from what it finds.
In between, other threads run.  The section that handles a vote and the one that builds an
`AppendEntries` look at the role again before they go on.  `sendRequestVoteToAll` does not:
if the candidacy ended in the window, it asks for votes all the same, in the term that the
node has by then, in which it may have voted for somebody else.

`Input.deposes` lists the inputs that end a candidacy.  In the runs in which no node handles
one of them in its window (`Cluster.Undisturbed`) every request comes from a candidate, and
every vote goes to one.

* `Server.Steady`: nothing changes that an election is about.
* `Node.handle_stands`: what keeps a node standing until it asks.
* `requestVotes_by_candidates`: the property of runs, and `requestVotes_deposed` a run
  without it.
-/

namespace RaftConsensus

/-! ## What leaves a candidacy alone -/

namespace Server

variable {s s' s'' : Server}

/-- Role, term and vote stay, and so does the leader that the server knows. -/
structure Steady (s s' : Server) : Prop where
  nodeId : s'.nodeId = s.nodeId
  role : s'.role = s.role
  term : s'.metadata.currentTerm = s.metadata.currentTerm
  vote : s'.metadata.votedFor = s.metadata.votedFor
  leaderId : s'.currentLeaderId = s.currentLeaderId

theorem Steady.refl (s : Server) : Steady s s := ⟨rfl, rfl, rfl, rfl, rfl⟩

theorem Steady.trans (h : Steady s s') (h' : Steady s' s'') : Steady s s'' :=
  ⟨h'.nodeId.trans h.nodeId, h'.role.trans h.role, h'.term.trans h.term, h'.vote.trans h.vote,
    h'.leaderId.trans h.leaderId⟩

theorem Steady.commits {es : List Effect} (h : Commits s s' es) : Steady s s' :=
  ⟨h.nodeId, h.role, h.currentTerm, h.votedFor, by rw [h.eq]⟩

theorem advanceCommit_steady (s : Server) : Steady s s.advanceCommit := by
  obtain ⟨es, h⟩ := s.advanceCommit_commits
  exact .commits h

theorem storeEntries_steady {entries : List LogEntry} (h : s.storeEntries entries = some s') :
    Steady s s' := by
  cases storeEntries_way h with
  | same | rewritten => exact ⟨rfl, rfl, rfl, rfl, rfl⟩

theorem propose_steady {request : Request} {r : Waiter × Server} (h : s.propose request = some r) :
    Steady s r.2 := by
  obtain ⟨-, hw, hs'⟩ := propose_eq h
  have happend : Steady s (s.appendEntry r.1.entry) := ⟨rfl, rfl, rfl, rfl, rfl⟩
  rw [hs']
  exact happend.trans (advanceCommit_steady _)

/-- A reply to an `AppendEntries` leaves all this alone, unless it has a later term. -/
theorem handleAppendEntriesReply_steady (peer : ℕ) (args : AppendEntriesArgs)
    {reply : AppendEntriesReply} (h : ¬ s.metadata.currentTerm < reply.term) :
    Steady s (s.handleAppendEntriesReply peer args reply) := by
  generalize hs' : s.handleAppendEntriesReply peer args reply = s'
  cases handleAppendEntriesReply_way hs' with
  | stepsDown hlt => exact absurd hlt h
  | ignored | backed => exact ⟨rfl, rfl, rfl, rfl, rfl⟩
  | credited =>
    rw [creditPeer_eq]
    refine Steady.trans ?_ (advanceCommit_steady _)
    exact ⟨rfl, rfl, rfl, rfl, rfl⟩

/-- A new leader stays in its term, keeps its vote, and knows itself as the leader. -/
theorem becomeLeader_frame (s : Server) :
    s.becomeLeader.role = .leader ∧ s.becomeLeader.currentLeaderId = s.nodeId ∧
      s.becomeLeader.nodeId = s.nodeId ∧
      s.becomeLeader.metadata.currentTerm = s.metadata.currentTerm ∧
      s.becomeLeader.metadata.votedFor = s.metadata.votedFor := by
  have h := advanceCommit_steady (s.takeLead.appendEntry s.takeLead.noop).resetPeers
  exact ⟨h.role, h.leaderId, h.nodeId, h.term, h.vote⟩

/-- The server runs in term `t`: it is a candidate or has just won, and its vote of the term is its
own. -/
structure Stands (s : Server) (t : ℕ) : Prop where
  role : s.role = .candidate ∨ s.role = .leader
  term : s.metadata.currentTerm = t
  vote : s.metadata.votedFor = s.nodeId

theorem Stands.steady {t : ℕ} (h : s.Stands t) (hs : Steady s s') : s'.Stands t where
  role := by
    rw [hs.role]
    exact h.role
  term := hs.term.trans h.term
  vote := by rw [hs.vote, hs.nodeId, h.vote]

theorem becomeCandidate_stands (s : Server) :
    s.becomeCandidate.Stands ((s.metadata.currentTerm + 1) % 2 ^ 64) := ⟨Or.inl rfl, rfl, rfl⟩

theorem Stands.becomeLeader {t : ℕ} (h : s.Stands t) : s.becomeLeader.Stands t := by
  obtain ⟨hrole, -, hid, hterm, hvote⟩ := s.becomeLeader_frame
  exact ⟨Or.inr hrole, hterm.trans h.term, by rw [hvote, hid, h.vote]⟩

/-- A vote request of no later term leaves a server standing: its vote is taken. -/
theorem Stands.handleRequestVote {t : ℕ} (h : s.Stands t) (hid : s.nodeId ≠ 0)
    {args : RequestVoteArgs} (ht : ¬ s.metadata.currentTerm < args.term) :
    (s.handleRequestVote args).2.Stands t := by
  have hmeet : s.meetTerm args.term = s := if_neg ht
  generalize hr : s.handleRequestVote args = r
  cases handleRequestVote_way hr with
  | old => exact h
  | granted hold hcan =>
    rw [hmeet] at hcan ⊢
    -- it can only vote for itself again
    have hself : args.candidateId = s.metadata.votedFor := by
      rcases voted_of_canVote hcan with hfree | hsame
      · exact absurd (h.vote.symm.trans hfree) hid
      · exact hsame.symm
    exact ⟨h.role, h.term, hself.trans h.vote⟩
  | denied =>
    rw [hmeet]
    exact h

end Server

/-! ## What ends a candidacy -/

/-- The inputs that take a candidate out of its candidacy: a later term, and the leader of its
own. -/
def Input.deposes (s : Server) : Input → Bool
  | .requestVote args => decide (s.metadata.currentTerm < args.term)
  | .appendEntries args => decide (s.metadata.currentTerm ≤ args.term)
  | .requestVoteReply _ reply => decide (s.metadata.currentTerm < reply.term)
  | .appendEntriesReply _ _ reply => decide (s.metadata.currentTerm < reply.term)
  | _ => false

namespace Node

variable {n m : Node} {x : Input} {os : List Output}

/-- **A node stands as long as nothing deposes it**, from its candidacy until it asks for votes. -/
theorem handle_stands (hm : n.handle x = some (m, os)) (hid : n.server.nodeId ≠ 0)
    (hstands : n.campaigning = true → n.server.Stands n.server.metadata.currentTerm)
    (hdeposes : n.campaigning = true → x.deposes n.server = false)
    (hcamp : m.campaigning = true) : m.server.Stands m.server.metadata.currentTerm := by
  -- a steady section while the node is on its way to ask
  have steady : n.campaigning = true → n.server.Steady m.server →
      m.server.Stands m.server.metadata.currentTerm := by
    intro h hs
    rw [hs.term]
    exact (hstands h).steady hs
  have at_term : ∀ {t : ℕ}, m.server.Stands t → m.server.Stands m.server.metadata.currentTerm :=
    fun h => ⟨h.role, rfl, h.vote⟩
  cases handle_section hm with
  | requestVote args =>
    exact at_term ((hstands hcamp).handleRequestVote hid (of_decide_eq_false (hdeposes hcamp)))
  | appendEntries args r hr =>
    have hlt := not_le.mp (of_decide_eq_false (hdeposes hcamp))
    rw [Server.handleAppendEntries, if_pos hlt] at hr
    rw [← Option.some.inj hr]
    exact hstands hcamp
  | requestVoteReply t reply =>
    have hold := hstands hcamp
    have hcount : n.server.countVote.Stands n.server.metadata.currentTerm :=
      ⟨hold.role, hold.term, hold.vote⟩
    refine at_term (t := n.server.metadata.currentTerm) ?_
    dsimp only
    generalize hs' : n.server.handleRequestVoteReply t reply = s'
    cases Server.handleRequestVoteReply_way hs' with
    | stepsDown hlt => exact absurd hlt (of_decide_eq_false (hdeposes hcamp))
    | ignored => exact hold
    | won => exact hcount.becomeLeader
    | counted => exact hcount
  | appendEntriesReply peer args reply =>
    exact steady hcamp
      (Server.handleAppendEntriesReply_steady peer args (of_decide_eq_false (hdeposes hcamp)))
  | contactFailed peer => exact steady hcamp ⟨rfl, rfl, rfl, rfl, rfl⟩
  | electionTimeout r hr =>
    cases Server.electionTimeout_way hr with
    | alone => exact at_term n.server.becomeCandidate_stands.becomeLeader
    | campaigns => exact at_term n.server.becomeCandidate_stands
  | sendRequestVotes hsent => exact absurd hcamp (by simp)
  | proposed request w s hp => exact steady hcamp (Server.propose_steady hp)
  | atOnce request w s hp => exact steady hcamp (Server.propose_steady hp)
  | replicate | refused | wake => exact hstands hcamp

end Node

/-- A local input deposes nobody. -/
theorem Input.deposes_of_isLocal {x : Input} (hx : x.isLocal = true) (s : Server) :
    x.deposes s = false := by
  cases x <;> first | rfl | exact absurd hx (by simp [isLocal])

theorem Server.handleRequestVote_deposed {s : Server} {args : RequestVoteArgs}
    (h : s.metadata.currentTerm < args.term) : (s.handleRequestVote args).2.role = .follower := by
  have hmeet : s.meetTerm args.term = s.stepDown args.term := if_pos h
  generalize hr : s.handleRequestVote args = r
  cases handleRequestVote_way hr with
  | old hold => exact absurd hold h.not_gt
  | granted | denied =>
    rw [hmeet]
    rfl

theorem Server.handleAppendEntries_deposed {s : Server} {args : AppendEntriesArgs}
    (h : s.metadata.currentTerm ≤ args.term) {r : AppendEntriesReply × Server}
    (hr : s.handleAppendEntries args = some r) : r.2.role = .follower := by
  cases handleAppendEntries_way hr with
  | old hold => exact absurd hold h.not_gt
  | mismatch => rfl
  | stored hnew hprev s' hs' =>
    obtain ⟨es, hc⟩ := s'.followCommit_commits args
    exact ((storeEntries_steady hs').trans (.commits hc)).role

/-- **A deposed node is a follower, and is still on its way to ask for votes.** -/
theorem Node.handle_deposed {n m : Node} {x : Input} {os : List Output}
    (hm : n.handle x = some (m, os)) (hx : x.deposes n.server = true) :
    m.server.role = .follower ∧ m.campaigning = n.campaigning := by
  cases handle_section hm with
  | requestVote args => exact ⟨Server.handleRequestVote_deposed (of_decide_eq_true hx), rfl⟩
  | appendEntries args r hr =>
    exact ⟨Server.handleAppendEntries_deposed (of_decide_eq_true hx) hr, rfl⟩
  | requestVoteReply t reply =>
    refine ⟨?_, rfl⟩
    dsimp only
    rw [Server.handleRequestVoteReply, if_pos (of_decide_eq_true hx)]
    rfl
  | appendEntriesReply peer args reply =>
    refine ⟨?_, rfl⟩
    dsimp only [Server.handleAppendEntriesReply]
    rw [if_pos (of_decide_eq_true hx)]
    rfl
  | _ => exact absurd hx (by simp [Input.deposes])

/-! ## Where votes come from -/

namespace Server

variable {s s' s'' : Server}

/-- No candidate gets the vote of the server by asking for it. -/
structure CastsNone (s s' : Server) : Prop where
  nodeId : s'.nodeId = s.nodeId
  mark : ∀ {candidate t}, .votedFor candidate t ∈ s'.effects → .votedFor candidate t ∈ s.effects

theorem CastsNone.refl (s : Server) : CastsNone s s := ⟨rfl, id⟩

theorem CastsNone.trans (h : CastsNone s s') (h' : CastsNone s' s'') : CastsNone s s'' :=
  ⟨h'.nodeId.trans h.nodeId, fun hm => h.mark (h'.mark hm)⟩

theorem CastsNone.of_eq (hid : s'.nodeId = s.nodeId) (he : s'.effects = s.effects) :
    CastsNone s s' := ⟨hid, fun h => he ▸ h⟩

theorem CastsNone.emit (s : Server) (e : Effect) (he : ∀ candidate t, e ≠ .votedFor candidate t) :
    CastsNone s (s.emit e) := by
  refine ⟨rfl, fun h => ?_⟩
  rcases List.mem_append.mp h with h | h
  · exact h
  · exact absurd (List.mem_singleton.mp h).symm (he _ _)

theorem CastsNone.commits {es : List Effect} (h : Commits s s' es) : CastsNone s s' := by
  refine ⟨h.nodeId, fun hm => ?_⟩
  rw [h.effects] at hm
  rcases List.mem_append.mp hm with hm | hm
  · exact hm
  · exact absurd (h.isCommit _ hm) id

theorem advanceCommit_castsNone (s : Server) : CastsNone s s.advanceCommit := by
  obtain ⟨es, h⟩ := s.advanceCommit_commits
  exact .commits h

theorem adoptTerm_castsNone (s : Server) (t leaderId : ℕ) : CastsNone s (s.adoptTerm t leaderId) := by
  refine ⟨rfl, fun h => ?_⟩
  rcases List.mem_append.mp h with h | h
  · exact h
  · exact absurd (List.mem_singleton.mp h) (by simp)

theorem appendEntry_castsNone (s : Server) (e : LogEntry) : CastsNone s (s.appendEntry e) := by
  have hpush : CastsNone s { s with logEntries := s.logEntries ++ [e] } := .of_eq rfl rfl
  exact hpush.trans (.emit _ (.writelog e) (by simp))

theorem becomeLeader_castsNone (s : Server) : CastsNone s s.becomeLeader := by
  have hmark := CastsNone.emit s (.becomeLeader s.metadata.currentTerm s.logEntries) (by simp)
  have htake : CastsNone s s.takeLead := ⟨rfl, hmark.mark⟩
  have hreset : CastsNone (s.takeLead.appendEntry s.takeLead.noop)
      (s.takeLead.appendEntry s.takeLead.noop).resetPeers := .of_eq rfl rfl
  exact ((htake.trans (appendEntry_castsNone _ _)).trans hreset).trans (advanceCommit_castsNone _)

theorem becomeCandidate_castsNone (s : Server) : CastsNone s s.becomeCandidate := by
  have hrole : CastsNone s
      { s with
        role := .candidate
        metadata := { s.metadata with
          currentTerm := (s.metadata.currentTerm + 1) % 2 ^ 64, votedFor := s.nodeId }
        currentLeaderId := 0
        votesReceived := 1 } := .of_eq rfl rfl
  exact (hrole.trans (.emit _ (.updateMetaData _) (by simp))).trans
    (.emit _ (.candidate _) (by simp))

/-- **A vote goes to the candidate that asks for it**, in the term of its request. -/
theorem handleRequestVote_votes (s : Server) (args : RequestVoteArgs) :
    (s.handleRequestVote args).2.nodeId = s.nodeId ∧
      ∀ candidate t, .votedFor candidate t ∈ (s.handleRequestVote args).2.effects →
        .votedFor candidate t ∈ s.effects ∨ candidate = args.candidateId ∧ t = args.term := by
  have hmeet : CastsNone s (s.meetTerm args.term) := by
    unfold meetTerm
    split
    · exact s.adoptTerm_castsNone args.term 0
    · exact .refl s
  generalize hr : s.handleRequestVote args = r
  cases handleRequestVote_way hr with
  | old => exact ⟨rfl, fun _ _ h => Or.inl h⟩
  | denied => exact ⟨hmeet.nodeId, fun _ _ h => Or.inl (hmeet.mark h)⟩
  | granted hold hcan =>
    have hterm := meetTerm_term hold
    generalize s.meetTerm args.term = s' at hmeet hterm ⊢
    refine ⟨hmeet.nodeId, fun candidate t h => ?_⟩
    have hvote : CastsNone s'
        { s' with metadata := { s'.metadata with votedFor := args.candidateId } } :=
      .of_eq rfl rfl
    have hwrite := hvote.trans
      (.emit _ (.updateMetaData { s'.metadata with votedFor := args.candidateId }) (by simp))
    rcases List.mem_append.mp h with h | h
    · exact Or.inl (hmeet.mark (hwrite.mark h))
    · obtain ⟨rfl, rfl⟩ := Effect.votedFor.inj (List.mem_singleton.mp h)
      exact Or.inr ⟨rfl, hterm⟩

theorem storeEntries_castsNone {entries : List LogEntry} (h : s.storeEntries entries = some s') :
    CastsNone s s' := by
  cases storeEntries_way h with
  | same log => exact .of_eq rfl rfl
  | rewritten log =>
    have hlog : CastsNone s { s with logEntries := log } := .of_eq rfl rfl
    exact hlog.trans (.emit _ (.rewriteLog log) (by simp))

theorem handleAppendEntries_castsNone {args : AppendEntriesArgs} {r : AppendEntriesReply × Server}
    (h : s.handleAppendEntries args = some r) : CastsNone s r.2 := by
  have hrec : CastsNone s (s.recognizeLeader args) := by
    rw [recognizeLeader_eq]
    split
    · exact s.adoptTerm_castsNone _ _
    · exact .of_eq rfl rfl
  cases handleAppendEntries_way h with
  | old => exact .refl s
  | mismatch => exact hrec
  | stored hterm hprev s' hs' =>
    obtain ⟨es, hc⟩ := s'.followCommit_commits args
    exact (hrec.trans (storeEntries_castsNone hs')).trans (.commits hc)

theorem handleRequestVoteReply_castsNone (s : Server) (t : ℕ) (reply : RequestVoteReply) :
    CastsNone s (s.handleRequestVoteReply t reply) := by
  have hcount : CastsNone s s.countVote := .of_eq rfl rfl
  generalize hs' : s.handleRequestVoteReply t reply = s'
  cases handleRequestVoteReply_way hs' with
  | stepsDown => exact s.adoptTerm_castsNone _ _
  | ignored => exact .refl s
  | won => exact hcount.trans (becomeLeader_castsNone _)
  | counted => exact hcount

theorem handleAppendEntriesReply_castsNone (s : Server) (peer : ℕ) (args : AppendEntriesArgs)
    (reply : AppendEntriesReply) : CastsNone s (s.handleAppendEntriesReply peer args reply) := by
  have hup : CastsNone s (s.reached peer) := .of_eq rfl rfl
  generalize hs' : s.handleAppendEntriesReply peer args reply = s'
  cases handleAppendEntriesReply_way hs' with
  | stepsDown => exact hup.trans (adoptTerm_castsNone _ _ _)
  | ignored => exact hup
  | credited =>
    rw [creditPeer_eq]
    refine CastsNone.trans ?_ (advanceCommit_castsNone _)
    exact .of_eq rfl rfl
  | backed => exact .of_eq rfl rfl

theorem electionTimeout_castsNone {r : Bool × Server} (h : s.electionTimeout = some r) :
    CastsNone s r.2 := by
  cases electionTimeout_way h with
  | alone => exact s.becomeCandidate_castsNone.trans (becomeLeader_castsNone _)
  | campaigns => exact s.becomeCandidate_castsNone

theorem propose_castsNone {request : Request} {r : Waiter × Server}
    (h : s.propose request = some r) : CastsNone s r.2 := by
  obtain ⟨-, -, hs'⟩ := propose_eq h
  rw [hs']
  exact (s.appendEntry_castsNone _).trans (advanceCommit_castsNone _)

end Server

/-- **The votes of a section**: it gives one if it handles a request for it. -/
theorem Node.handle_votes {n m : Node} {x : Input} {os : List Output}
    (hm : n.handle x = some (m, os)) : m.server.nodeId = n.server.nodeId ∧
      ∀ candidate t, .votedFor candidate t ∈ m.server.effects →
        .votedFor candidate t ∈ n.server.effects ∨
          ∃ args, x = .requestVote args ∧ candidate = args.candidateId ∧ t = args.term := by
  have none : n.server.CastsNone m.server → m.server.nodeId = n.server.nodeId ∧
      ∀ candidate t, .votedFor candidate t ∈ m.server.effects →
        .votedFor candidate t ∈ n.server.effects ∨
          ∃ args, x = .requestVote args ∧ candidate = args.candidateId ∧ t = args.term :=
    fun h => ⟨h.nodeId, fun _ _ hmem => Or.inl (h.mark hmem)⟩
  cases handle_section hm with
  | requestVote args =>
    obtain ⟨hid, hvotes⟩ := n.server.handleRequestVote_votes args
    exact ⟨hid, fun candidate t h => (hvotes candidate t h).imp_right fun h' => ⟨args, rfl, h'⟩⟩
  | appendEntries args r hr => exact none (Server.handleAppendEntries_castsNone hr)
  | requestVoteReply t reply => exact none (n.server.handleRequestVoteReply_castsNone t reply)
  | appendEntriesReply peer args reply =>
    exact none (n.server.handleAppendEntriesReply_castsNone peer args reply)
  | contactFailed peer => exact none (.of_eq rfl rfl)
  | electionTimeout r hr => exact none (Server.electionTimeout_castsNone hr)
  | proposed request w s hp => exact none (Server.propose_castsNone hp)
  | atOnce request w s hp => exact none (Server.propose_castsNone hp)
  | sendRequestVotes | replicate | refused | wake => exact none (.refl _)

/-- Only the timer thread asks for votes, for the node as it is. -/
theorem Node.of_requestVotes {n m : Node} {x : Input} {os : List Output}
    (hm : n.handle x = some (m, os)) {args : RequestVoteArgs} (ho : .requestVotes args ∈ os) :
    n.campaigning = true ∧ args = n.server.requestVoteArgs := by
  cases handle_section hm with
  | sendRequestVotes hcamp =>
    exact ⟨hcamp, Output.requestVotes.inj (List.mem_singleton.mp ho)⟩
  | _ => exact absurd ho (by simp)

/-- A request is sent for the output that has it. -/
theorem Output.of_requestVote_mem {i boot : ℕ} {peers : List ℕ} {g : Trigger} {o : Output}
    {caller b callee : ℕ} {args : RequestVoteArgs}
    (h : .requestVote caller b callee args ∈ o.packets i boot peers g) :
    caller = i ∧ o = .requestVotes args := by
  rcases o with reply | reply | args' | ⟨peer, args'⟩ | _ | _ | _
  · unfold packets at h
    dsimp only at h
    split at h
    · exact absurd (List.mem_singleton.mp h) (by simp)
    · exact absurd h (by simp)
  · unfold packets at h
    dsimp only at h
    split at h
    · exact absurd (List.mem_singleton.mp h) (by simp)
    · exact absurd h (by simp)
  · obtain ⟨k, -, hk⟩ := List.mem_map.mp h
    obtain ⟨rfl, -, -, rfl⟩ := Packet.requestVote.inj hk
    exact ⟨rfl, rfl⟩
  · exact absurd (List.mem_singleton.mp h) (by simp)
  all_goals exact absurd h (by simp [packets])

/-- A section that leaves a candidate or a leader found one, or began a candidacy. -/
theorem Node.handle_candidate {n m : Node} {x : Input} {os : List Output}
    (hm : n.handle x = some (m, os)) (hrole : m.server.role ≠ .follower) :
    (n.server.role ≠ .follower ∧
      m.server.metadata.currentTerm = n.server.metadata.currentTerm) ∨
    .candidate m.server.metadata.currentTerm ∈ m.server.effects := by
  cases Node.handle_turn hm with
  | quiet hq hcamp =>
    left
    rcases hr : m.server.role with _ | _ | _
    · exact absurd hr hrole
    · obtain ⟨hr', ht, -⟩ := hq.candidate hr
      exact ⟨by simp [hr'], ht⟩
    · obtain ⟨hr', ht⟩ := hq.leader hr
      exact ⟨by simp [hr'], ht⟩
  | candidacy hx hrole' hterm hvotes hmark hq => exact Or.inr hmark
  | counted hx hgranted hrole' hterm heq =>
    obtain rfl : m = _ := heq
    exact Or.inl ⟨hrole, rfl⟩
  | elected pre post heff hpre hpost hrole' hwin =>
    rcases hwin with ⟨-, hcand, -, -⟩ | ⟨reply, -, -, hcand, hterm, -⟩
    · right
      rw [show m.server.effects = _ from heff]
      exact List.mem_append_right _ (List.mem_append_left _ hcand)
    · exact Or.inl ⟨by simp [hcand], hterm⟩

namespace Cluster

variable {conf : Config} {c c' : Cluster} {tr evs : List (ℕ × Node.Event)}

/-! ## The window -/

/-- No node handles an input that deposes it between its candidacy and its request for votes. -/
def Undisturbed (c : Cluster) : Action → Prop
  | .run i g => ∀ x net, c.fetch i g = some (x, net) → (c.hosts i).campaigning = true →
      x.deposes (c.hosts i).server = false
  | _ => True

/-- Member `i` was a candidate in term `t`, with its own vote persisted. -/
def Ran (tr : List (ℕ × Node.Event)) (i t : ℕ) : Prop := (i, .effect (.candidate t)) ∈ tr

/-- **Requests for votes come from candidates, and votes go to candidates.** -/
structure RealCandidates (conf : Config) (tr : List (ℕ × Node.Event)) (c : Cluster) : Prop where
  /-- whoever asks for votes next, whatever happens, stands in the term of the request -/
  asks : ∀ a c' evs, step conf c a = some (c', evs) →
    ∀ i args, (i, .output (.requestVotes args)) ∈ evs →
      args.candidateId = i ∧ (c.hosts i).server.Stands args.term ∧ Ran tr i args.term
  /-- the requests on their way are those that were built -/
  sent : ∀ caller b callee args, .requestVote caller b callee args ∈ c.network →
    args.candidateId = caller ∧ (caller, .output (.requestVotes args)) ∈ tr
  /-- a vote goes to a member that has stood in its term -/
  votes : ∀ v candidate t, (v, .effect (.votedFor candidate t)) ∈ tr → Ran tr candidate t

/-- **The invariant of candidacies.** -/
structure CandidacyInv (conf : Config) (tr : List (ℕ × Node.Event)) (c : Cluster) : Prop where
  nodeId : ∀ i ∈ conf.members, (c.hosts i).server.nodeId = i
  clean : ∀ i ∈ conf.members, (c.hosts i).server.effects = []
  stands : ∀ i ∈ conf.members, (c.hosts i).campaigning = true →
    (c.hosts i).server.Stands (c.term i)
  ran : ∀ i ∈ conf.members, (c.hosts i).server.role ≠ .follower → Ran tr i (c.term i)
  sent : ∀ caller b callee args, .requestVote caller b callee args ∈ c.network →
    args.candidateId = caller ∧ (caller, .output (.requestVotes args)) ∈ tr ∧
      Ran tr caller args.term
  votes : ∀ v candidate t, (v, .effect (.votedFor candidate t)) ∈ tr → Ran tr candidate t

/-- A member that asks for votes stands. -/
theorem CandidacyInv.asks (h : CandidacyInv conf tr c) {a : Action}
    (hs : step conf c a = some (c', evs)) {i : ℕ} {args : RequestVoteArgs}
    (hout : (i, .output (.requestVotes args)) ∈ evs) :
    args.candidateId = i ∧ (c.hosts i).server.Stands args.term ∧ Ran tr i args.term := by
  cases step_moves hs with
  | run j g x net m os hj hfetch hm =>
    obtain ⟨rfl, hmem⟩ := mem_tag.mp hout
    rcases List.mem_append.mp hmem with hmem | hmem
    · obtain ⟨e, -, he⟩ := List.mem_map.mp hmem
      exact absurd he (by simp)
    · obtain ⟨o, ho, heq⟩ := List.mem_map.mp hmem
      obtain rfl : o = .requestVotes args := Node.Event.output.inj heq
      obtain ⟨hcamp, rfl⟩ := Node.of_requestVotes hm ho
      have hstands := h.stands i hj hcamp
      refine ⟨h.nodeId i hj, hstands, h.ran i hj ?_⟩
      rcases hstands.role with hr | hr <;> simp [hr]
  | crash j retries hj =>
    obtain ⟨-, hmem⟩ := mem_tag.mp hout
    obtain ⟨e, -, he⟩ := List.mem_map.mp hmem
    exact absurd he (by simp)
  | crashIn j g p retries x net m os hj hfetch hm =>
    obtain ⟨-, hmem⟩ := mem_tag.mp hout
    obtain ⟨e, -, he⟩ := List.mem_map.mp hmem
    exact absurd he (by simp)
  | lose p hp => exact absurd hout (by simp)

theorem Ran.mono {i t : ℕ} (h : Ran tr i t) (evs : List (ℕ × Node.Event)) : Ran (tr ++ evs) i t :=
  List.mem_append_left _ h

/-- A step of one member, told of the member alone. -/
theorem CandidacyInv.of_node (h : CandidacyInv conf tr c) {i : ℕ} {n : Node} {net : List Packet}
    (hid : n.server.nodeId = i) (hclean : n.server.effects = [])
    (hstands : n.campaigning = true → n.server.Stands n.server.metadata.currentTerm)
    (hran : n.server.role ≠ .follower → Ran (tr ++ evs) i n.server.metadata.currentTerm)
    (hsent : ∀ caller b callee args, .requestVote caller b callee args ∈ net →
      .requestVote caller b callee args ∈ c.network ∨ args.candidateId = caller ∧
        (caller, .output (.requestVotes args)) ∈ evs ∧ Ran tr caller args.term)
    (hvotes : ∀ v candidate t, (v, .effect (.votedFor candidate t)) ∈ evs → Ran tr candidate t) :
    CandidacyInv conf (tr ++ evs) ⟨Function.update c.hosts i n, net⟩ := by
  refine ⟨forall_mem_update (Q := fun j n => n.server.nodeId = j) hid fun j hj _ => h.nodeId j hj,
    forall_mem_update (Q := fun _ n => n.server.effects = []) hclean fun j hj _ => h.clean j hj,
    forall_mem_update (Q := fun _ n => n.campaigning = true →
      n.server.Stands n.server.metadata.currentTerm) hstands fun j hj _ => h.stands j hj,
    forall_mem_update (Q := fun j n => n.server.role ≠ .follower →
        Ran (tr ++ evs) j n.server.metadata.currentTerm)
      hran fun j hj _ hrole => (h.ran j hj hrole).mono evs,
    fun caller b callee args hp => ?_, fun v candidate t hv => ?_⟩
  · rcases hsent caller b callee args hp with hold | ⟨hid', hout, hran'⟩
    · obtain ⟨hid', hout, hran'⟩ := h.sent caller b callee args hold
      exact ⟨hid', List.mem_append_left _ hout, hran'.mono evs⟩
    · exact ⟨hid', List.mem_append_right _ hout, hran'.mono evs⟩
  · rcases List.mem_append.mp hv with hv | hv
    · exact (h.votes v candidate t hv).mono evs
    · exact (hvotes v candidate t hv).mono evs

/-- The votes of a section go to members that have stood. -/
theorem CandidacyInv.votes_run (h : CandidacyInv conf tr c) {i : ℕ} (hi : i ∈ conf.members)
    {g : Trigger} {x : Input} {net : List Packet} {m : Node} {os : List Output}
    (hfetch : c.fetch i g = some (x, net)) (hm : (c.hosts i).handle x = some (m, os))
    {candidate t : ℕ} (hv : .votedFor candidate t ∈ m.server.effects) : Ran tr candidate t := by
  rcases (Node.handle_votes hm).2 candidate t hv with hold | ⟨args, rfl, rfl, rfl⟩
  · rw [h.clean i hi] at hold
    exact absurd hold (by simp)
  · rcases fetch_eq_some hfetch with ⟨-, hloc, -⟩ | ⟨p, -, hp, hdel, -⟩
    · exact absurd hloc (by simp [Input.isLocal])
    cases hdel with
    | requestVote caller b args =>
      obtain ⟨hid, -, hran⟩ := h.sent _ _ _ _ hp
      rwa [hid]

/-- **Every undisturbed step keeps the invariant.** -/
theorem CandidacyInv.step (h : CandidacyInv conf tr c) {a : Action} (ha : Undisturbed c a)
    (hs : step conf c a = some (c', evs)) : CandidacyInv conf (tr ++ evs) c' := by
  have hasks := @CandidacyInv.asks conf c c' tr evs h a hs
  cases step_moves hs with
  | run i g x net m os hi hfetch hm =>
    have hid := (Node.handle_votes hm).1.trans (h.nodeId i hi)
    have hne : (c.hosts i).server.nodeId ≠ 0 := by
      rw [h.nodeId i hi]
      exact conf.ne_zero i hi
    have hstands := Node.handle_stands hm hne (h.stands i hi) (ha x net hfetch)
    refine h.of_node hid rfl (fun hcamp => ⟨(hstands hcamp).role, rfl, (hstands hcamp).vote⟩)
      (fun hrole => ?_) (fun caller b callee args hp => ?_) fun v candidate t hv => ?_
    · rcases Node.handle_candidate hm hrole with ⟨hrole', hterm⟩ | hmark
      · rw [show m.flush.server.metadata.currentTerm = _ from hterm]
        exact (h.ran i hi hrole').mono _
      · exact List.mem_append_right _ (mem_tag.mpr ⟨rfl, List.mem_append_left _
          (List.mem_map_of_mem hmark)⟩)
    · rcases List.mem_append.mp hp with hp | hp
      · exact Or.inl (fetch_subset hfetch hp)
      · -- a request is sent for an output
        right
        obtain ⟨o, ho, hp⟩ := List.mem_flatMap.mp hp
        obtain ⟨rfl, rfl⟩ := Output.of_requestVote_mem hp
        have hout : (caller, .output (.requestVotes args)) ∈
            tag caller (m.server.effects.map .effect ++ os.map .output) :=
          mem_tag.mpr ⟨rfl, List.mem_append_right _ (List.mem_map_of_mem ho)⟩
        obtain ⟨hcand, -, hran⟩ := hasks hout
        exact ⟨hcand, hout, hran⟩
    · rcases List.mem_append.mp (mem_tag.mp hv).2 with hv | hv
      · obtain ⟨e, he, heq⟩ := List.mem_map.mp hv
        exact h.votes_run hi hfetch hm (Node.Event.effect.inj heq ▸ he)
      · obtain ⟨o, -, heq⟩ := List.mem_map.mp hv
        exact absurd heq (by simp)
  | crash i retries hi =>
    refine h.of_node ?_ rfl (fun hcamp => absurd hcamp (by simp [Node.restart, Node.start]))
      (fun hrole => absurd (Node.restart_role _ _ _) hrole) (fun _ _ _ _ hp => Or.inl hp)
      fun v candidate t hv => ?_
    · rw [Node.restart, Node.start, recover_eq]
      exact h.nodeId i hi
    · obtain ⟨e, he, heq⟩ := List.mem_map.mp (mem_tag.mp hv).2
      obtain rfl := Node.Event.effect.inj heq
      exact absurd (Node.isBoot_restart he) id
  | crashIn i g p retries x net m os hi hfetch hm =>
    refine h.of_node ?_ rfl (fun hcamp => absurd hcamp (by simp [Node.restart, Node.start]))
      (fun hrole => absurd (Node.restart_role _ _ _) hrole)
      (fun _ _ _ _ hp => Or.inl (fetch_subset hfetch hp)) fun v candidate t hv => ?_
    · rw [Node.restart, Node.start, recover_eq]
      exact h.nodeId i hi
    · obtain ⟨e, he, heq⟩ := List.mem_map.mp (mem_tag.mp hv).2
      obtain rfl := Node.Event.effect.inj heq
      rcases List.mem_append.mp he with he | he
      · exact h.votes_run hi hfetch hm (List.mem_of_mem_take he)
      · exact absurd (Node.isBoot_restart he) id
  | lose p hp =>
    rw [List.append_nil]
    exact ⟨h.nodeId, h.clean, h.stands, h.ran,
      fun caller b callee args hq => h.sent caller b callee args (List.mem_of_mem_erase hq),
      h.votes⟩

theorem candidacyInv (h : Run (machine conf) Undisturbed tr c) : CandidacyInv conf tr c := by
  refine h.invariant (I := fun tr c => CandidacyInv conf tr c) ?_ ?_
  · refine ⟨fun i _ => ?_, fun _ _ => rfl, fun _ _ hcamp => absurd hcamp (by
      simp [machine, initial, Node.start]), fun i _ hrole => ?_, ?_, ?_⟩
    · show (Node.start i (conf.peers i) Files.none 0).server.nodeId = i
      rw [Node.start, recover_eq]
      rfl
    · exact absurd (Node.start_role i (conf.peers i) Files.none 0) hrole
    · simp [machine, initial]
    · simp
  · intro tr s a s' es _ hI hP hs
    exact hI.step hP hs

/-- The timer thread of a node on its way to ask for votes can go on at any time. -/
theorem exists_step_sendRequestVotes {i : ℕ} (hi : i ∈ conf.members)
    (hcamp : (c.hosts i).campaigning = true) :
    ∃ c' evs, step conf c (.run i (.thread .sendRequestVotes)) = some (c', evs) ∧
      (i, .output (.requestVotes (c.hosts i).server.requestVoteArgs)) ∈ evs := by
  have hm : (c.hosts i).handle .sendRequestVotes = some ({ c.hosts i with campaigning := false },
      [.requestVotes (c.hosts i).server.requestVoteArgs]) := by rw [Node.handle, if_pos hcamp]
  rw [step, if_pos hi]
  simp only [fetch, Input.isLocal, if_true, stepNode, Node.step_run hm, Option.map_some]
  exact ⟨_, _, rfl, mem_tag.mpr ⟨rfl, List.mem_append_right _ List.mem_cons_self⟩⟩

/-- **A node that is deposed in its window is about to ask without standing.** -/
theorem not_realCandidates {a : Action} (hs : step conf c a = some (c', evs))
    (ha : ¬ Undisturbed c a) : ¬ RealCandidates conf (tr ++ evs) c' := by
  intro hreal
  cases step_moves hs with
  | run i g x net m os hi hfetch hm =>
    refine ha fun x' net' hfetch' hcamp => ?_
    obtain ⟨rfl, rfl⟩ := Prod.mk.inj (Option.some.inj (hfetch.symm.trans hfetch'))
    by_contra hdep
    obtain ⟨hrole, hcamp'⟩ := Node.handle_deposed hm (by simpa using hdep)
    have hcamp'' : (Function.update c.hosts i m.flush i).campaigning = true := by
      simpa [Node.flush] using hcamp'.trans hcamp
    obtain ⟨c'', evs', hs', hout⟩ := @exists_step_sendRequestVotes conf
      ⟨Function.update c.hosts i m.flush, net ++ os.flatMap
        (Output.packets i (c.hosts i).boot (c.hosts i).server.peers g)⟩ i hi hcamp''
    obtain ⟨-, hstands, -⟩ := hreal.asks _ _ _ hs' _ _ hout
    have hfollower : ∀ s : Server, s.role = .follower → ¬ s.Stands s.metadata.currentTerm := by
      rintro s hr ⟨h | h, -, -⟩ <;> exact absurd (hr.symm.trans h) (by simp)
    exact hfollower _ (by simpa [Node.flush] using hrole) hstands
  | crash i retries hi => exact ha trivial
  | crashIn i g p retries x net m os hi hfetch hm => exact ha trivial
  | lose p hp => exact ha trivial

/-- **Every request for votes comes from a candidate**, and every vote goes to one, in every run in
which no candidacy ends before its requests are built; and the first step that ends one so
breaks this. -/
theorem requestVotes_by_candidates (h : Run (machine conf) Undisturbed tr c) :
    RealCandidates conf tr c ∧ ∀ a c' evs, step conf c a = some (c', evs) →
      (RealCandidates conf (tr ++ evs) c' ↔ Undisturbed c a) := by
  have real : ∀ {tr c}, Run (machine conf) Undisturbed tr c → RealCandidates conf tr c := by
    intro tr c h
    have hinv := candidacyInv h
    refine ⟨fun a c' evs hs i args hout => hinv.asks hs hout, fun caller b callee args hp => ?_,
      hinv.votes⟩
    obtain ⟨hid, hout, -⟩ := hinv.sent caller b callee args hp
    exact ⟨hid, hout⟩
  refine ⟨real h, fun a c' evs hs => ⟨fun hreal => ?_, fun ha => real (h.next ha hs)⟩⟩
  by_contra ha
  exact not_realCandidates hs ha hreal

/-- An election in which nobody is disturbed: node 3 votes for node 1, which stands. -/
theorem requestVotes_by_candidates_first : ∃ tr c, Run (machine .three) Undisturbed tr c ∧
    RealCandidates .three tr c ∧ .votedFor 1 1 ∈ effects 3 tr ∧ Ran tr 1 1 := by
  let p : Cluster → Action → Bool
    | _, .run _ (.thread _) => true
    | c, .run i (.packet _) => !(c.hosts i).campaigning
    | _, _ => false
  have hp : ∀ c a, p c a = true → Undisturbed c a := by
    intro c a h
    rcases a with ⟨i, y | q⟩ | _ | _ | _
    · intro x net hfetch _
      rcases fetch_eq_some hfetch with ⟨-, hloc, -⟩ | ⟨q, hq, -⟩
      · exact Input.deposes_of_isLocal hloc _
      · exact absurd hq (by simp)
    · intro x net _ hcamp
      rw [show p c (.run i (.packet q)) = !(c.hosts i).campaigning from rfl, hcamp] at h
      exact absurd h (by simp)
    all_goals trivial
  obtain ⟨tr, c, hrun, h⟩ := Run.exists_of_exec hp (M := machine .three)
    (fun _ tr => decide (.votedFor 1 1 ∈ effects 3 tr ∧ .candidate 1 ∈ effects 1 tr))
    (campaign 1 3 1 0 0) (by decide +kernel)
  obtain ⟨hvote, hran⟩ := of_decide_eq_true h
  exact ⟨tr, c, hrun, (requestVotes_by_candidates hrun).1, hvote, mem_effects.mp hran⟩

/-- Node 2 stands in term 1.  Before it asks for votes it hears of the candidacy of node 1 in term 2
and votes for it.  Then it asks for votes of term 2, in which it never stands, and node 3 votes
for it. -/
theorem requestVotes_deposed : ∃ tr c, Run (machine .three) Admissible tr c ∧
    .votedFor 1 2 ∈ effects 2 tr ∧ .votedFor 2 2 ∈ effects 3 tr ∧ ¬ Ran tr 2 2 ∧
    ¬ RealCandidates .three tr c := by
  obtain ⟨tr, c, hrun, h⟩ := Run.exists_of_exec admissible_of_admits (M := machine .three)
    (fun _ tr => decide (.votedFor 1 2 ∈ effects 2 tr ∧ .votedFor 2 2 ∈ effects 3 tr ∧
      .candidate 2 ∉ effects 2 tr))
    [.run 1 (.thread .electionTimeout), .run 1 (.thread .sendRequestVotes),
      .run 1 (.thread .electionTimeout), .run 1 (.thread .sendRequestVotes),
      .run 2 (.thread .electionTimeout), .run 2 (.packet (.requestVote 1 0 2 ⟨2, 1, 0, 0⟩)),
      .run 2 (.thread .sendRequestVotes), .run 3 (.packet (.requestVote 2 0 3 ⟨2, 2, 0, 0⟩))]
    (by decide +kernel)
  obtain ⟨hvote, hvote', hran⟩ := of_decide_eq_true h
  have hnot : ¬ Ran tr 2 2 := fun hmem => hran (mem_effects.mpr hmem)
  exact ⟨tr, c, hrun, hvote, hvote', hnot,
    fun hreal => hnot (hreal.votes 3 2 2 (mem_effects.mp hvote'))⟩

end Cluster

end RaftConsensus
