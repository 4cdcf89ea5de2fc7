import RaftConsensus.Recovery

/-!
# What a section means for an election

`Node.Turn` lists the four things that a section can do to an election: nothing
(`Server.Quiet`), stand as a candidate, count a vote, or win.  `Node.handle_turn` is the one
place where the handlers are taken apart for this question.
-/

namespace RaftConsensus

namespace Server

variable {s s' s'' : Server}

/-- Nobody stands, counts or wins: a candidate or a leader afterwards was one before, in the
same term and with the same votes. -/
structure Quiet (s s' : Server) : Prop where
  candidate : s'.role = .candidate → s.role = .candidate ∧
    s'.metadata.currentTerm = s.metadata.currentTerm ∧ s'.votesReceived = s.votesReceived
  leader : s'.role = .leader → s.role = .leader ∧
    s'.metadata.currentTerm = s.metadata.currentTerm
  mark : ∀ {t log}, .becomeLeader t log ∈ s'.effects → .becomeLeader t log ∈ s.effects

theorem Quiet.refl (s : Server) : Quiet s s := ⟨fun h => ⟨h, rfl, rfl⟩, fun h => ⟨h, rfl⟩, id⟩

theorem Quiet.trans (h : Quiet s s') (h' : Quiet s' s'') : Quiet s s'' where
  candidate hr := by
    obtain ⟨hr', ht, hv⟩ := h'.candidate hr
    obtain ⟨hr'', ht', hv'⟩ := h.candidate hr'
    exact ⟨hr'', ht.trans ht', hv.trans hv'⟩
  leader hr := by
    obtain ⟨hr', ht⟩ := h'.leader hr
    obtain ⟨hr'', ht'⟩ := h.leader hr'
    exact ⟨hr'', ht.trans ht'⟩
  mark hm := h.mark (h'.mark hm)

/-- A change that leaves role, term, votes and effects alone. -/
theorem Quiet.of_eq (hr : s'.role = s.role)
    (ht : s'.metadata.currentTerm = s.metadata.currentTerm)
    (hv : s'.votesReceived = s.votesReceived) (he : s'.effects = s.effects) : Quiet s s' :=
  ⟨fun h => ⟨hr ▸ h, ht, hv⟩, fun h => ⟨hr ▸ h, ht⟩, fun h => he ▸ h⟩

theorem Quiet.of_follower (hr : s'.role = .follower)
    (hm : ∀ {t log}, .becomeLeader t log ∈ s'.effects → .becomeLeader t log ∈ s.effects) :
    Quiet s s' :=
  ⟨fun h => absurd (hr.symm.trans h) (by decide), fun h => absurd (hr.symm.trans h) (by decide),
    hm⟩

theorem Quiet.emit (s : Server) (e : Effect) (he : ∀ t log, e ≠ .becomeLeader t log) :
    Quiet s (s.emit e) where
  candidate h := ⟨h, rfl, rfl⟩
  leader h := ⟨h, rfl⟩
  mark h := by
    rcases List.mem_append.mp h with h | h
    · exact h
    · exact absurd (List.mem_singleton.mp h).symm (he _ _)

theorem Quiet.commits {es : List Effect} (h : Commits s s' es) : Quiet s s' where
  candidate hr := ⟨h.role ▸ hr, h.currentTerm, h.votesReceived⟩
  leader hr := ⟨h.role ▸ hr, h.currentTerm⟩
  mark hm := by
    rw [h.effects] at hm
    rcases List.mem_append.mp hm with hm | hm
    · exact hm
    · exact absurd (h.isCommit _ hm) id

theorem advanceCommit_quiet (s : Server) : Quiet s s.advanceCommit := by
  obtain ⟨es, h⟩ := s.advanceCommit_commits
  exact Quiet.commits h

theorem stepDown_quiet (s : Server) (t : ℕ) : Quiet s (s.stepDown t) := by
  refine Quiet.of_follower rfl fun h => ?_
  rcases List.mem_append.mp h with h | h
  · exact h
  · exact absurd (List.mem_singleton.mp h) (by simp)

theorem appendEntry_quiet (s : Server) (e : LogEntry) : Quiet s (s.appendEntry e) := by
  have hpush : Quiet s { s with logEntries := s.logEntries ++ [e] } := Quiet.of_eq rfl rfl rfl rfl
  exact hpush.trans (Quiet.emit _ (.writelog e) (by simp))

theorem grantVote_quiet (s : Server) (c : ℕ) : Quiet s (s.grantVote c) := by
  have h1 : Quiet s { s with metadata := { s.metadata with votedFor := c } } :=
    Quiet.of_eq rfl rfl rfl rfl
  exact (h1.trans (Quiet.emit _ (.updateMetaData _) (by simp))).trans
    (Quiet.emit _ (.votedFor c s.metadata.currentTerm) (by simp))

theorem handleRequestVote_quiet (s : Server) (args : RequestVoteArgs) :
    Quiet s (s.handleRequestVote args).2 := by
  have hmeet : Quiet s (s.meetTerm args.term) := by
    unfold meetTerm
    split
    · exact s.stepDown_quiet args.term
    · exact Quiet.refl s
  generalize hr : s.handleRequestVote args = r
  cases handleRequestVote_way hr with
  | old => exact Quiet.refl s
  | granted => exact hmeet.trans (grantVote_quiet _ args.candidateId)
  | denied => exact hmeet

/-- **A granted vote was marked**, for the candidate and the term of the request. -/
theorem handleRequestVote_granted {args : RequestVoteArgs}
    (h : (s.handleRequestVote args).1.voteGranted = true) :
    .votedFor args.candidateId args.term ∈ (s.handleRequestVote args).2.effects := by
  generalize hr : s.handleRequestVote args = r at h ⊢
  cases handleRequestVote_way hr with
  | old => exact absurd h (by simp)
  | granted hterm hcan => simp [Server.grantVote, Server.emit, meetTerm_term hterm]
  | denied => exact absurd h (by simp)

theorem recognizeLeader_quiet (s : Server) (args : AppendEntriesArgs) :
    Quiet s (s.recognizeLeader args) := by
  refine Quiet.of_follower rfl fun h => ?_
  unfold recognizeLeader at h
  dsimp only at h
  split at h
  · rcases List.mem_append.mp h with h | h
    · exact h
    · exact absurd (List.mem_singleton.mp h) (by simp)
  · exact h

theorem storeEntries_quiet {entries : List LogEntry} (h : s.storeEntries entries = some s') :
    Quiet s s' := by
  cases storeEntries_way h with
  | same log => exact Quiet.of_eq rfl rfl rfl rfl
  | rewritten log =>
    have hlog : Quiet s { s with logEntries := log } := Quiet.of_eq rfl rfl rfl rfl
    exact hlog.trans (Quiet.emit _ (.rewriteLog log) (by simp))

theorem handleAppendEntries_quiet {args : AppendEntriesArgs} {r : AppendEntriesReply × Server}
    (h : s.handleAppendEntries args = some r) : Quiet s r.2 := by
  cases handleAppendEntries_way h with
  | old => exact Quiet.refl s
  | mismatch => exact s.recognizeLeader_quiet args
  | stored hterm hprev s' hs' =>
    obtain ⟨es, hc⟩ := s'.followCommit_commits args
    exact ((s.recognizeLeader_quiet args).trans (storeEntries_quiet hs')).trans (Quiet.commits hc)

theorem handleAppendEntriesReply_quiet (s : Server) (peer : ℕ) (args : AppendEntriesArgs)
    (reply : AppendEntriesReply) : Quiet s (s.handleAppendEntriesReply peer args reply) := by
  have hup : Quiet s (s.reached peer) := Quiet.of_eq rfl rfl rfl rfl
  generalize hs' : s.handleAppendEntriesReply peer args reply = s'
  cases handleAppendEntriesReply_way hs' with
  | stepsDown => exact hup.trans (stepDown_quiet _ _)
  | ignored => exact hup
  | credited =>
    rw [creditPeer_eq]
    refine Quiet.trans ?_ (advanceCommit_quiet _)
    exact Quiet.of_eq rfl rfl rfl rfl
  | backed => exact Quiet.of_eq rfl rfl rfl rfl

theorem propose_quiet {request : Request} {r : Waiter × Server} (h : s.propose request = some r) :
    Quiet s r.2 := by
  obtain ⟨-, -, hs'⟩ := propose_eq h
  rw [hs']
  exact (s.appendEntry_quiet _).trans (advanceCommit_quiet _)

/-- **What `becomeLeader` leaves**: a leader of the same term, and one mark. -/
theorem becomeLeader_eq (s : Server) : ∃ post,
    s.becomeLeader.effects =
      s.effects ++ .becomeLeader s.metadata.currentTerm s.logEntries :: post ∧
    (∀ t log, .becomeLeader t log ∉ post) ∧ s.becomeLeader.role = .leader ∧
    s.becomeLeader.metadata.currentTerm = s.metadata.currentTerm := by
  obtain ⟨es, h⟩ := advanceCommit_commits (s.takeLead.appendEntry s.takeLead.noop).resetPeers
  refine ⟨.writelog s.takeLead.noop :: es, ?_, ?_, ?_, ?_⟩
  · rw [becomeLeader, h.effects]
    simp [resetPeers, appendEntry, emit, takeLead]
  · intro t log hm
    rcases List.mem_cons.mp hm with hm | hm
    · exact absurd hm (by simp)
    · exact h.isCommit _ hm
  · rw [becomeLeader, h.role]
    rfl
  · rw [becomeLeader, h.currentTerm]
    rfl

end Server

namespace Node

/-- **What a section can mean for an election.** -/
inductive Turn (n : Node) (x : Input) (n' : Node) : Prop
  | quiet (h : n.server.Quiet n'.server) (hcamp : n'.campaigning = true → n.campaigning = true)
  | candidacy (hx : x = .electionTimeout) (hrole : n'.server.role = .candidate)
      (hterm : n'.server.metadata.currentTerm = (n.server.metadata.currentTerm + 1) % 2 ^ 64)
      (hvotes : n'.server.votesReceived = 1)
      (hmark : .candidate n'.server.metadata.currentTerm ∈ n'.server.effects)
      (hquiet : ∀ {t log}, .becomeLeader t log ∈ n'.server.effects →
        .becomeLeader t log ∈ n.server.effects)
  | counted {t : ℕ} {reply : RequestVoteReply} (hx : x = .requestVoteReply t reply)
      (hgranted : reply.voteGranted = true) (hrole : n.server.role = .candidate)
      (hterm : n.server.metadata.currentTerm = t)
      (heq : n' = { n with server := { n.server with
        votesReceived := (n.server.votesReceived + 1) % 2 ^ 64 } })
  | elected (pre post : List Effect)
      (heff : n'.server.effects = n.server.effects ++
        (pre ++ .becomeLeader n'.server.metadata.currentTerm n.server.logEntries :: post))
      (hpre : ∀ t log, .becomeLeader t log ∉ pre) (hpost : ∀ t log, .becomeLeader t log ∉ post)
      (hrole : n'.server.role = .leader)
      (hwin : (n.server.majority ≤ 1 ∧ .candidate n'.server.metadata.currentTerm ∈ pre ∧
          n'.server.metadata.currentTerm = (n.server.metadata.currentTerm + 1) % 2 ^ 64 ∧
          x = .electionTimeout) ∨
        ∃ reply, x = .requestVoteReply n.server.metadata.currentTerm reply ∧
          reply.voteGranted = true ∧ n.server.role = .candidate ∧
          n'.server.metadata.currentTerm = n.server.metadata.currentTerm ∧
          n.server.majority ≤ (n.server.votesReceived + 1) % 2 ^ 64)

variable {n : Node}

theorem handleRequestVoteReply_turn (t : ℕ) (reply : RequestVoteReply) :
    Turn n (.requestVoteReply t reply)
      { n with server := n.server.handleRequestVoteReply t reply } := by
  generalize hs' : n.server.handleRequestVoteReply t reply = s'
  cases Server.handleRequestVoteReply_way hs' with
  | stepsDown => exact .quiet (n.server.stepDown_quiet _) id
  | ignored => exact .quiet (Server.Quiet.refl _) id
  | won hterm hrole hsame hgranted hmaj =>
    obtain ⟨post, heff, hpost, hrole', hterm'⟩ := n.server.countVote.becomeLeader_eq
    refine .elected [] post ?_ (by simp) hpost hrole' (Or.inr
      ⟨reply, by rw [hsame], hgranted, hrole, hterm', hmaj⟩)
    rw [List.nil_append, hterm']
    exact heff
  | counted hterm hrole hsame hgranted => exact .counted rfl hgranted hrole hsame rfl

theorem electionTimeout_turn {r : Bool × Server} (h : n.server.electionTimeout = some r) :
    Turn n .electionTimeout { n with server := r.2, campaigning := r.1 } := by
  have heffects : n.server.becomeCandidate.effects = n.server.effects ++
      [.updateMetaData n.server.becomeCandidate.metadata,
        .candidate n.server.becomeCandidate.metadata.currentTerm] := by
    simp [Server.becomeCandidate, Server.persistMetaData, Server.emit]
  cases Server.electionTimeout_way h with
  | alone hrole hmaj =>
    obtain ⟨post, heff, hpost, hrole, hterm⟩ := n.server.becomeCandidate.becomeLeader_eq
    refine .elected [.updateMetaData n.server.becomeCandidate.metadata,
      .candidate n.server.becomeCandidate.metadata.currentTerm] post ?_ (by simp) hpost hrole
      (Or.inl ⟨hmaj, ?_, hterm, rfl⟩)
    · show n.server.becomeCandidate.becomeLeader.effects = _
      rw [heff, heffects, List.append_assoc, hterm]
      rfl
    · rw [hterm]
      simp
  | campaigns =>
    refine .candidacy rfl rfl rfl rfl ?_ ?_
    · show _ ∈ n.server.becomeCandidate.effects
      rw [heffects]
      simp
    · intro t log hm
      rw [heffects] at hm
      simpa using hm

/-- **Every section is one of the four.** -/
theorem handle_turn {x : Input} {r : Node × List Output} (hr : n.handle x = some r) :
    Turn n x r.1 := by
  obtain ⟨m, os⟩ := r
  cases handle_section hr with
  | requestVote args => exact .quiet (n.server.handleRequestVote_quiet args) id
  | appendEntries args r hr' => exact .quiet (Server.handleAppendEntries_quiet hr') id
  | requestVoteReply t reply => exact handleRequestVoteReply_turn t reply
  | appendEntriesReply peer args reply =>
    exact .quiet (n.server.handleAppendEntriesReply_quiet peer args reply) id
  | contactFailed peer => exact .quiet (Server.Quiet.of_eq rfl rfl rfl rfl) id
  | electionTimeout r hr' => exact electionTimeout_turn hr'
  | sendRequestVotes hcamp => exact .quiet (Server.Quiet.refl _) fun h => absurd h (by simp)
  | proposed request w s hp => exact .quiet (Server.propose_quiet hp) id
  | atOnce request w s hp => exact .quiet (Server.propose_quiet hp) id
  | replicate | refused | wake => exact .quiet (Server.Quiet.refl _) id

end Node

end RaftConsensus
