import RaftConsensus.Commit
import RaftConsensus.Library.Monitor

/-!
# Votes are persisted before they are spoken of

The *ballot* of a node is its term and the candidate it voted for in that term (`0` for
nobody).  It is the part of `metadata.bin` that elections rest on.

A section writes the ballot, and it marks votes and candidacies.  `ballots` is a monitor
that reads a section's effects and keeps the ballot on disk: a write may raise the term, or
fill in a vote that was free, and nothing else; a vote may be marked when it is the ballot
on disk.  `Node.handle_tracked` says that every section passes the monitor, and that the
ballot on disk at its end is the one in memory.

The monitor sees every prefix of the effects, so it covers crashes too
(`ballots_crashFiles`), with one exception: between the open and the write of
`updateMetaData` there is no ballot on disk.
-/

namespace RaftConsensus

/-! ## The monitor -/

/-- The ballot on disk after an effect. -/
def Effect.ballot (p : ℕ × ℕ) : Effect → ℕ × ℕ
  | updateMetaData m => (m.currentTerm, m.votedFor)
  | createMetaData => (0, 0)
  | _ => p

/-- The effects that node `i` may have when its ballot on disk is `p`. -/
def Effect.Lawful (i : ℕ) (p : ℕ × ℕ) : Effect → Prop
  | updateMetaData m => m.currentTerm < 2 ^ 64 ∧ m.votedFor < 2 ^ 64 ∧
      (p.1 < m.currentTerm ∨ p.1 = m.currentTerm ∧ (p.2 = 0 ∨ p.2 = m.votedFor))
  | createMetaData => p = (0, 0)
  | votedFor c term => p = (term, c) ∧ c ≠ 0
  | candidate term => p = (term, i) ∧ i ≠ 0
  | becomeLeader term _ => p.1 = term
  | _ => True

/-- The monitor of node `i`. -/
def ballots (i : ℕ) : Monitor (ℕ × ℕ) Effect where
  next := Effect.ballot
  ok := Effect.Lawful i

/-- The ballot that `getMetaData` finds. -/
def diskBallot (files : Files) : ℕ × ℕ :=
  ((getMetaData files).currentTerm, (getMetaData files).votedFor)

theorem diskBallot_congr {files files' : Files} (h : files .metadata = files' .metadata) :
    diskBallot files = diskBallot files' := by
  rw [diskBallot, diskBallot, getMetaData, getMetaData, h]

theorem diskBallot_metaDataBytes {files : Files} {m : MetaData}
    (h : files .metadata = some (metaDataBytes m)) (ht : m.currentTerm < 2 ^ 64)
    (hv : m.votedFor < 2 ^ 64) : diskBallot files = (m.currentTerm, m.votedFor) := by
  rw [diskBallot, getMetaData_metaDataBytes h, MetaData.cut, Nat.mod_eq_of_lt ht,
    Nat.mod_eq_of_lt hv]

/-- The effects other than writes of metadata do not touch its file. -/
theorem Effect.calls_not_touched {e : Effect} (h : ∀ m, e ≠ .updateMetaData m)
    (h' : e ≠ .createMetaData) : ∀ c ∈ e.calls, .metadata ∉ c.touches := by
  rcases e with m | x | es | n | _ | _ | _ | _ | _ | _ | _ | _
  · exact absurd rfl (h m)
  · simp [calls, RaftConsensus.writelog, Syscall.touches]
  · intro c hc
    simp only [calls, RaftConsensus.rewriteLog, List.mem_cons, List.mem_append, List.mem_map,
      List.not_mem_nil, or_false] at hc
    rcases hc with rfl | ⟨x, -, rfl⟩ | rfl <;> simp [Syscall.touches]
  · simp [calls, RaftConsensus.truncateLogFile, Syscall.touches]
  · exact absurd rfl h'
  · simp [calls, RaftConsensus.createLogs, Syscall.touches]
  all_goals simp [calls]

/-- An effect carried out to its end leaves the ballot that the monitor keeps. -/
theorem diskBallot_calls {i : ℕ} {files : Files} {e : Effect}
    (h : e.Lawful i (diskBallot files)) :
    diskBallot (runCalls noFaults e.calls files).2 = e.ballot (diskBallot files) := by
  by_cases hm : ∃ m, e = .updateMetaData m
  · obtain ⟨m, rfl⟩ := hm
    obtain ⟨ht, hv, -⟩ := h
    refine diskBallot_metaDataBytes ?_ ht hv
    rw [Effect.calls, updateMetaData_metadata, Function.update_self]
  by_cases hc : e = .createMetaData
  · subst hc
    refine (diskBallot_metaDataBytes (m := .initial) ?_ (by decide) (by decide)).trans rfl
    have := updateMetaData_metadata .initial files
    rw [updateMetaData] at this
    rw [Effect.calls, createMetaData, this, Function.update_self]
  · have hsame : e.ballot (diskBallot files) = diskBallot files := by
      rcases e with m | _ | _ | _ | _ | _ | _ | _ | _ | _ | _ | _
      · exact absurd ⟨m, rfl⟩ hm
      all_goals first | rfl | exact absurd rfl hc
    rw [hsame]
    exact diskBallot_congr
      (runCalls_of_not_touched (e.calls_not_touched (fun m h => hm ⟨m, h⟩) hc) _ _)

@[simp] theorem perform_nil (files : Files) : perform [] files = files := rfl

theorem perform_cons (e : Effect) (es : List Effect) (files : Files) :
    perform (e :: es) files = perform es (runCalls noFaults e.calls files).2 := rfl

theorem perform_append (es es' : List Effect) (files : Files) :
    perform (es ++ es') files = perform es' (perform es files) := by
  induction es generalizing files with
  | nil => rfl
  | cons e es ih => rw [List.cons_append, perform_cons, perform_cons, ih]

/-- **What the monitor keeps is what is on disk.** -/
theorem diskBallot_perform {i : ℕ} {es : List Effect} {p q : ℕ × ℕ} (h : (ballots i).Reads p es q)
    {files : Files} (hf : diskBallot files = p) : diskBallot (perform es files) = q := by
  induction h generalizing files with
  | nil p => exact hf
  | cons hok _ ih =>
    subst hf
    rw [perform_cons]
    exact ih (diskBallot_calls hok)

/-- **A crash leaves the ballot of a moment**, unless it falls between the open and the write of
`updateMetaData`. -/
theorem ballots_crashFiles {i : ℕ} {es : List Effect} {p q : ℕ × ℕ} (h : (ballots i).Reads p es q)
    {files : Files} (hf : diskBallot files = p) {c : CrashPoint} (hc : ¬ TornAt es c) :
    ∃ k, c.done ≤ k ∧ (ballots i).Reads p (es.take k) (diskBallot (crashFiles es c files)) := by
  obtain ⟨r, hr⟩ := h.take c.done
  have hdisk := diskBallot_perform hr hf
  rcases he : es[c.done]? with _ | e
  · refine ⟨c.done, le_rfl, ?_⟩
    rw [crashFiles, he]
    simp only [Option.map_none, Option.getD_none, List.take_nil, runCalls, hdisk]
    exact hr
  obtain ⟨r', hr', hok, hnext⟩ := h.getElem? he
  obtain rfl : r' = r := (diskBallot_perform hr' hf).symm.trans hdisk
  have hfiles : crashFiles es c files =
      (runCalls noFaults (e.calls.take c.calls) (perform (es.take c.done) files)).2 := by
    rw [crashFiles, he]
    rfl
  -- a crash before the write of metadata leaves the old ballot, one after it the new
  have hbefore : ∀ files', files' .metadata = perform (es.take c.done) files .metadata →
      crashFiles es c files = files' → ∃ k, c.done ≤ k ∧
        (ballots i).Reads p (es.take k) (diskBallot (crashFiles es c files)) := by
    intro files' hm heq
    refine ⟨c.done, le_rfl, ?_⟩
    rwa [heq, diskBallot_congr hm, hdisk]
  have hafter : e.calls.length ≤ c.calls → ∃ k, c.done ≤ k ∧
        (ballots i).Reads p (es.take k) (diskBallot (crashFiles es c files)) := by
    intro hlen
    refine ⟨c.done + 1, by omega, ?_⟩
    rw [hfiles, List.take_of_length_le hlen, diskBallot_calls (i := i) (by rwa [hdisk]), hdisk]
    exact hnext
  by_cases hm : ∃ m, e = .updateMetaData m
  · obtain ⟨m, rfl⟩ := hm
    rcases hcalls : c.calls with _ | _ | k
    · exact hbefore _ rfl (by rw [hfiles, hcalls]; rfl)
    · exact absurd ⟨hcalls, m, he⟩ hc
    · exact hafter (by rw [hcalls]; simp [Effect.calls, updateMetaData])
  by_cases hcm : e = .createMetaData
  · subst hcm
    rcases hcalls : c.calls with _ | _ | k
    · exact hbefore _ rfl (by rw [hfiles, hcalls]; rfl)
    · -- the new file is empty and reads as the default, like no file at all
      refine ⟨c.done, le_rfl, ?_⟩
      have hempty : crashFiles es c files .metadata = some [] := by
        rw [hfiles, hcalls]
        simp [Effect.calls, createMetaData, runCalls, Syscall.run, noFaults]
      have hok' : r' = (0, 0) := hok
      rw [diskBallot, getMetaData_empty hempty]
      rw [hok'] at hr
      exact hr
    · exact hafter (by rw [hcalls]; simp [Effect.calls, createMetaData])
  · refine hbefore _ ?_ rfl
    rw [hfiles]
    refine runCalls_of_not_touched (fun x hx => ?_) _ _
    exact e.calls_not_touched (fun m h => hm ⟨m, h⟩) hcm x (List.mem_of_mem_take hx)

/-! ## Every section passes the monitor -/

/-- The server is node `i` with peers `ps`, and the monitor accepts the effects that its
section has collected so far: it started from `p` and is now at the ballot in memory. -/
structure Server.Tracked (i : ℕ) (ps : List ℕ) (p : ℕ × ℕ) (s : Server) : Prop where
  nodeId : s.nodeId = i
  peers : s.peers = ps
  running : s.running = true
  term_lt : s.metadata.currentTerm < 2 ^ 64
  voted_lt : s.metadata.votedFor < 2 ^ 64
  reads : (ballots i).Reads p s.effects (s.metadata.currentTerm, s.metadata.votedFor)

namespace Server

variable {i : ℕ} {ps : List ℕ} {p : ℕ × ℕ} {s s' : Server}

/-- Writing the metadata after its ballot has changed lawfully. -/
theorem Tracked.persist (h : s.Tracked i ps p) (s' : Server) (hid : s'.nodeId = s.nodeId)
    (hps : s'.peers = s.peers) (hrun : s'.running = s.running) (heff : s'.effects = s.effects)
    (ht : s'.metadata.currentTerm < 2 ^ 64) (hv : s'.metadata.votedFor < 2 ^ 64)
    (hle : s.metadata.currentTerm < s'.metadata.currentTerm ∨
      s.metadata.currentTerm = s'.metadata.currentTerm ∧
        (s.metadata.votedFor = 0 ∨ s.metadata.votedFor = s'.metadata.votedFor)) :
    s'.persistMetaData.Tracked i ps p where
  nodeId := hid.trans h.nodeId
  peers := hps.trans h.peers
  running := hrun.trans h.running
  term_lt := ht
  voted_lt := hv
  reads := by
    show (ballots i).Reads p (s'.effects ++ [.updateMetaData s'.metadata]) _
    rw [heff]
    exact h.reads.snoc (M := ballots i) (e := .updateMetaData s'.metadata) ⟨ht, hv, hle⟩

/-- A mark, or a write of the log. -/
theorem Tracked.emit (h : s.Tracked i ps p) {e : Effect}
    (hok : e.Lawful i (s.metadata.currentTerm, s.metadata.votedFor))
    (hsame : ∀ p, e.ballot p = p) : (s.emit e).Tracked i ps p where
  nodeId := h.nodeId
  peers := h.peers
  running := h.running
  term_lt := h.term_lt
  voted_lt := h.voted_lt
  reads := by
    have := h.reads.snoc (M := ballots i) (e := e) hok
    have hnext : (ballots i).next (s.metadata.currentTerm, s.metadata.votedFor) e =
        (s.metadata.currentTerm, s.metadata.votedFor) := hsame _
    rwa [hnext] at this

/-- A change that leaves ballot and effects alone. -/
theorem Tracked.congr (h : s.Tracked i ps p) (s' : Server) (hid : s'.nodeId = s.nodeId)
    (hps : s'.peers = s.peers) (hrun : s'.running = s.running) (heff : s'.effects = s.effects)
    (ht : s'.metadata.currentTerm = s.metadata.currentTerm)
    (hv : s'.metadata.votedFor = s.metadata.votedFor) : s'.Tracked i ps p where
  nodeId := hid.trans h.nodeId
  peers := hps.trans h.peers
  running := hrun.trans h.running
  term_lt := ht ▸ h.term_lt
  voted_lt := hv ▸ h.voted_lt
  reads := by rw [heff, ht, hv]; exact h.reads

theorem Tracked.commits (h : s.Tracked i ps p) {es : List Effect} (hc : Commits s s' es) :
    s'.Tracked i ps p where
  nodeId := hc.nodeId.trans h.nodeId
  peers := hc.peers.trans h.peers
  running := hc.running.trans h.running
  term_lt := hc.currentTerm ▸ h.term_lt
  voted_lt := hc.votedFor ▸ h.voted_lt
  reads := by
    rw [hc.effects, hc.currentTerm, hc.votedFor]
    refine h.reads.append (Monitor.Reads.idle fun e he => ?_)
    have := hc.isCommit e he
    rcases e with m | _ | _ | _ | _ | _ | _ | _ | _ | _ | _ | _
    · obtain rfl : m = s'.metadata := this
      refine ⟨⟨?_, ?_, Or.inr ⟨hc.currentTerm.symm, Or.inr hc.votedFor.symm⟩⟩, ?_⟩
      · exact hc.currentTerm ▸ h.term_lt
      · exact hc.votedFor ▸ h.voted_lt
      · exact Prod.ext hc.currentTerm hc.votedFor
    all_goals first | exact absurd this id | exact ⟨trivial, rfl⟩

theorem Tracked.advanceCommit (h : s.Tracked i ps p) : s.advanceCommit.Tracked i ps p := by
  obtain ⟨es, hc⟩ := s.advanceCommit_commits
  exact h.commits hc

theorem Tracked.followCommit (h : s.Tracked i ps p) (args : AppendEntriesArgs) :
    (s.followCommit args).Tracked i ps p := by
  obtain ⟨es, hc⟩ := s.followCommit_commits args
  exact h.commits hc

theorem Tracked.stepDown (h : s.Tracked i ps p) {t : ℕ} (hlt : s.metadata.currentTerm < t)
    (ht : t < 2 ^ 64) : (s.stepDown t).Tracked i ps p :=
  h.persist ({ s with
    role := .follower
    metadata := { s.metadata with currentTerm := t, votedFor := 0 }
    currentLeaderId := 0 }) rfl rfl rfl rfl ht (Nat.two_pow_pos 64) (Or.inl hlt)

theorem Tracked.appendEntry (h : s.Tracked i ps p) (e : LogEntry) :
    (s.appendEntry e).Tracked i ps p :=
  (h.congr ({ s with logEntries := s.logEntries ++ [e] }) rfl rfl rfl rfl rfl rfl).emit
    trivial fun _ => rfl

theorem Tracked.becomeLeader (h : s.Tracked i ps p) : s.becomeLeader.Tracked i ps p := by
  have hmark := h.emit (e := .becomeLeader s.metadata.currentTerm s.logEntries) rfl fun _ => rfl
  have hlead : s.takeLead.Tracked i ps p := hmark.congr _ rfl rfl rfl rfl rfl rfl
  unfold Server.becomeLeader
  refine Tracked.advanceCommit ?_
  exact (hlead.appendEntry s.takeLead.noop).congr _ rfl rfl rfl rfl rfl rfl

theorem Tracked.becomeCandidate (h : s.Tracked i ps p) (hi : i ≠ 0) (hi' : i < 2 ^ 64)
    (hwrap : s.metadata.currentTerm + 1 < 2 ^ 64) : s.becomeCandidate.Tracked i ps p := by
  have hmod : (s.metadata.currentTerm + 1) % 2 ^ 64 = s.metadata.currentTerm + 1 :=
    Nat.mod_eq_of_lt hwrap
  have hp : (persistMetaData { s with
      role := .candidate
      metadata := { s.metadata with
        currentTerm := (s.metadata.currentTerm + 1) % 2 ^ 64, votedFor := s.nodeId }
      currentLeaderId := 0
      votesReceived := 1 }).Tracked i ps p := by
    refine h.persist _ rfl rfl rfl rfl ?_ ?_ (Or.inl ?_)
    · show (s.metadata.currentTerm + 1) % 2 ^ 64 < 2 ^ 64
      omega
    · show s.nodeId < 2 ^ 64
      rw [h.nodeId]
      exact hi'
    · show s.metadata.currentTerm < (s.metadata.currentTerm + 1) % 2 ^ 64
      omega
  refine hp.emit ⟨?_, hi⟩ fun _ => rfl
  show ((s.metadata.currentTerm + 1) % 2 ^ 64, s.nodeId) = _
  rw [h.nodeId]

theorem Tracked.grantVote (h : s.Tracked i ps p) {c : ℕ} (hc : c ≠ 0) (hc' : c < 2 ^ 64)
    (hfree : s.metadata.votedFor = 0 ∨ s.metadata.votedFor = c) :
    (s.grantVote c).Tracked i ps p :=
  (h.persist ({ s with metadata := { s.metadata with votedFor := c } })
    rfl rfl rfl rfl h.term_lt hc' (Or.inr ⟨rfl, hfree⟩)).emit ⟨rfl, hc⟩ fun _ => rfl

theorem Tracked.recognizeLeader (h : s.Tracked i ps p) {args : AppendEntriesArgs}
    (ht : args.term < 2 ^ 64) : (s.recognizeLeader args).Tracked i ps p := by
  unfold Server.recognizeLeader
  refine Tracked.congr (s := if s.metadata.currentTerm < args.term then _ else s) ?_ _
    rfl rfl rfl rfl rfl rfl
  split
  · next hlt => exact h.persist _ rfl rfl rfl rfl ht (Nat.two_pow_pos 64) (Or.inl hlt)
  · exact h

theorem Tracked.storeEntries (h : s.Tracked i ps p) {entries : List LogEntry}
    (hs : s.storeEntries entries = some s') : s'.Tracked i ps p := by
  cases storeEntries_way hs with
  | same log => exact h.congr _ rfl rfl rfl rfl rfl rfl
  | rewritten log =>
    exact (h.congr ({ s with logEntries := log }) rfl rfl rfl rfl rfl rfl).emit
      trivial fun _ => rfl

/-! ### The handlers -/

/-- A vote can be given when it is free or was given to the same candidate. -/
theorem voted_of_canVote {args : RequestVoteArgs} (h : s.canVote args = true) :
    s.metadata.votedFor = 0 ∨ s.metadata.votedFor = args.candidateId := by
  unfold canVote at h
  simpa using (Bool.and_eq_true_iff.mp h).1

theorem Tracked.handleRequestVote (h : s.Tracked i ps p) {args : RequestVoteArgs}
    (ht : args.term < 2 ^ 64) (hc : args.candidateId ≠ 0) (hc' : args.candidateId < 2 ^ 64) :
    (s.handleRequestVote args).2.Tracked i ps p := by
  have hmeet : (s.meetTerm args.term).Tracked i ps p := by
    unfold meetTerm
    split
    · next hlt => exact h.stepDown hlt ht
    · exact h
  generalize hr : s.handleRequestVote args = r
  cases handleRequestVote_way hr with
  | old => exact h
  | granted hterm hcan => exact hmeet.grantVote hc hc' (voted_of_canVote hcan)
  | denied => exact hmeet

theorem Tracked.handleAppendEntries (h : s.Tracked i ps p) {args : AppendEntriesArgs}
    (ht : args.term < 2 ^ 64) {r : AppendEntriesReply × Server}
    (hr : s.handleAppendEntries args = some r) : r.2.Tracked i ps p := by
  cases handleAppendEntries_way hr with
  | old => exact h
  | mismatch => exact h.recognizeLeader ht
  | stored hterm hprev s' hs' => exact ((h.recognizeLeader ht).storeEntries hs').followCommit args

theorem Tracked.handleRequestVoteReply (h : s.Tracked i ps p) {t : ℕ} {reply : RequestVoteReply}
    (ht : reply.term < 2 ^ 64) : (s.handleRequestVoteReply t reply).Tracked i ps p := by
  have hcount : s.countVote.Tracked i ps p := h.congr _ rfl rfl rfl rfl rfl rfl
  generalize hs' : s.handleRequestVoteReply t reply = s'
  cases handleRequestVoteReply_way hs' with
  | stepsDown hlt => exact h.stepDown hlt ht
  | ignored => exact h
  | won => exact hcount.becomeLeader
  | counted => exact hcount

theorem Tracked.handleAppendEntriesReply (h : s.Tracked i ps p) {peer : ℕ}
    {args : AppendEntriesArgs} {reply : AppendEntriesReply} (ht : reply.term < 2 ^ 64) :
    (s.handleAppendEntriesReply peer args reply).Tracked i ps p := by
  have hup : (s.reached peer).Tracked i ps p := h.congr _ rfl rfl rfl rfl rfl rfl
  generalize hs' : s.handleAppendEntriesReply peer args reply = s'
  cases handleAppendEntriesReply_way hs' with
  | stepsDown hlt => exact hup.stepDown hlt ht
  | ignored => exact hup
  | credited =>
    rw [creditPeer_eq]
    refine Tracked.advanceCommit ?_
    exact hup.congr _ rfl rfl rfl rfl rfl rfl
  | backed => exact hup.congr _ rfl rfl rfl rfl rfl rfl

theorem Tracked.electionTimeout (h : s.Tracked i ps p) (hi : i ≠ 0) (hi' : i < 2 ^ 64)
    (hwrap : s.metadata.currentTerm + 1 < 2 ^ 64) {r : Bool × Server}
    (hr : s.electionTimeout = some r) : r.2.Tracked i ps p := by
  have hcand := h.becomeCandidate hi hi' hwrap
  cases electionTimeout_way hr with
  | alone => exact hcand.becomeLeader
  | campaigns => exact hcand

theorem Tracked.propose (h : s.Tracked i ps p) {request : Request} {r : Waiter × Server}
    (hr : s.propose request = some r) : r.2.Tracked i ps p := by
  obtain ⟨-, -, hs'⟩ := propose_eq hr
  rw [hs']
  exact (h.appendEntry _).advanceCommit

end Server

/-- What is known of an input: numbers of messages have 64 bits, candidates have ids, and the
term of the node can be raised. -/
def Input.Bounded (s : Server) : Input → Prop
  | requestVote args => args.term < 2 ^ 64 ∧ args.candidateId ≠ 0 ∧ args.candidateId < 2 ^ 64
  | appendEntries args => args.term < 2 ^ 64
  | requestVoteReply _ reply => reply.term < 2 ^ 64
  | appendEntriesReply _ _ reply => reply.term < 2 ^ 64
  | electionTimeout => s.metadata.currentTerm + 1 < 2 ^ 64
  | _ => True

instance (s : Server) : (x : Input) → Decidable (x.Bounded s)
  | .requestVote _ => inferInstanceAs (Decidable (_ ∧ _ ∧ _))
  | .appendEntries _ | .requestVoteReply _ _ | .appendEntriesReply _ _ _ | .electionTimeout =>
    inferInstanceAs (Decidable (_ < _))
  | .contactFailed _ | .sendRequestVotes | .replicate _ | .propose _ | .wake _ _ =>
    inferInstanceAs (Decidable True)

/-- **Every section passes the monitor.** -/
theorem Node.handle_tracked {i : ℕ} {ps : List ℕ} {p : ℕ × ℕ} {n : Node} {x : Input}
    {r : Node × List Output} (hr : n.handle x = some r) (h : n.server.Tracked i ps p)
    (hi : i ≠ 0) (hi' : i < 2 ^ 64) (hx : x.Bounded n.server) : r.1.server.Tracked i ps p := by
  obtain ⟨m, os⟩ := r
  cases handle_section hr with
  | requestVote args => exact h.handleRequestVote hx.1 hx.2.1 hx.2.2
  | appendEntries args r hr' => exact h.handleAppendEntries hx hr'
  | requestVoteReply t reply => exact h.handleRequestVoteReply hx
  | appendEntriesReply peer args reply => exact h.handleAppendEntriesReply hx
  | contactFailed peer => exact h.congr _ rfl rfl rfl rfl rfl rfl
  | electionTimeout r hr' => exact h.electionTimeout hi hi' hx hr'
  | proposed request w s hp => exact h.propose hp
  | atOnce request w s hp => exact h.propose hp
  | sendRequestVotes | replicate | refused | wake => exact h

end RaftConsensus
