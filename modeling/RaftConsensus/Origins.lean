import RaftConsensus.Proposals

/-!
# Where entries come from

An entry has two ways into a log: a leader appends it, or a follower copies it from a message.
So whatever stands in a log, in memory or on disk, or is on its way in a message, was made by
the winner of its term: as the NOOP with which it began to lead, or for a client.

* `Node.handle_entries`: what a section adds to the log of its node.
* `Cluster.Origin`: the event that an entry goes back to.
* `Cluster.entries_originate`: every entry has one.
-/

namespace RaftConsensus

/-! ## What a section adds -/

namespace Server

variable {s s' : Server} {e : LogEntry}

/-- The log of a server that has just won: one entry more. -/
theorem becomeLeader_logEntries (s : Server) :
    s.becomeLeader.logEntries = s.logEntries ++ [s.takeLead.noop] := by
  obtain ⟨es, h⟩ := advanceCommit_commits (s.takeLead.appendEntry s.takeLead.noop).resetPeers
  exact h.logEntries

/-- A follower has its entries from its old log or from the message. -/
theorem handleAppendEntries_mem {args : AppendEntriesArgs} {r : AppendEntriesReply × Server}
    (h : s.handleAppendEntries args = some r) (he : e ∈ r.2.logEntries) :
    e ∈ s.logEntries ∨ e ∈ args.entries := by
  cases handleAppendEntries_way h with
  | old => exact Or.inl he
  | mismatch =>
    rw [recognizeLeader_logEntries] at he
    exact Or.inl he
  | stored hterm hprev s' hs' =>
    obtain ⟨es, hc⟩ := s'.followCommit_commits args
    rw [hc.logEntries] at he
    cases storeEntries_way hs' with
    | same log hr | rewritten log hr =>
      rw [recognizeLeader_logEntries] at hr
      exact mem_reconcile hr he

/-- A vote leaves the log alone. -/
theorem handleRequestVote_logEntries (s : Server) (args : RequestVoteArgs) :
    (s.handleRequestVote args).2.logEntries = s.logEntries := by
  have hmeet : (s.meetTerm args.term).logEntries = s.logEntries := by
    unfold meetTerm
    split <;> rfl
  generalize hr : s.handleRequestVote args = r
  cases handleRequestVote_way hr with
  | old => rfl
  | granted => exact hmeet
  | denied => exact hmeet

/-- So does the reply to an AppendEntries. -/
theorem handleAppendEntriesReply_logEntries (s : Server) (peer : ℕ) (args : AppendEntriesArgs)
    (reply : AppendEntriesReply) :
    (s.handleAppendEntriesReply peer args reply).logEntries = s.logEntries := by
  generalize hs' : s.handleAppendEntriesReply peer args reply = s'
  cases handleAppendEntriesReply_way hs' with
  | stepsDown | ignored | backed => rfl
  | credited =>
    rw [creditPeer_eq]
    obtain ⟨es, h⟩ := ((s.reached peer).withCredit peer args).advanceCommit_commits
    exact h.logEntries

end Server

/-- The ways in which a section can put `e` into the log of its node. -/
inductive Node.Adds (n m : Node) (x : Input) (os : List Output) (e : LogEntry) : Prop
  | kept (he : e ∈ n.server.logEntries)
  | received (args : AppendEntriesArgs) (hx : x = .appendEntries args) (he : e ∈ args.entries)
  | won (hmark : .becomeLeader m.server.metadata.currentTerm n.server.logEntries ∈
      m.server.effects) (he : e = ⟨m.server.metadata.currentTerm, n.server.nextLogIndex, .noop⟩)
  | proposed (w : Waiter) (hw : .proposed w ∈ os) (he : e = w.entry)

/-- The winner of an election has one entry more. -/
theorem Node.Adds.of_won {n m : Node} {x : Input} {os : List Output} {e : LogEntry} {s : Server}
    (hlog : s.logEntries = n.server.logEntries) (hm : m.server = s.becomeLeader)
    (he : e ∈ m.server.logEntries) : n.Adds m x os e := by
  obtain ⟨post, heff, -, -, hterm⟩ := s.becomeLeader_eq
  rw [hm, Server.becomeLeader_logEntries] at he
  rcases List.mem_append.mp he with he | he
  · exact .kept (hlog ▸ he)
  · refine .won ?_ ?_
    · rw [hm, heff, hterm, hlog]
      simp
    · rw [List.mem_singleton.mp he, hm, hterm]
      have hindex : s.takeLead.nextLogIndex = n.server.nextLogIndex := by
        rw [Server.nextLogIndex, Server.nextLogIndex, Server.getLastLogIndex,
          Server.getLastLogIndex, ← hlog]
        rfl
      rw [← hindex]
      rfl

/-- **What a section adds to the log of its node.** -/
theorem Node.handle_entries {n m : Node} {x : Input} {os : List Output}
    (h : n.handle x = some (m, os)) {e : LogEntry} (he : e ∈ m.server.logEntries) :
    n.Adds m x os e := by
  have appended : ∀ {request w s}, n.server.propose request = some (w, s) → .proposed w ∈ os →
      e ∈ s.logEntries → n.Adds m x os e := by
    intro request w s hp hw he
    obtain ⟨-, -, -, hlog⟩ := Server.propose_eq_some hp
    rw [hlog] at he
    rcases List.mem_append.mp he with he | he
    · exact .kept he
    · exact .proposed w hw (List.mem_singleton.mp he)
  cases handle_section h with
  | requestVote args =>
    rw [Server.handleRequestVote_logEntries] at he
    exact .kept he
  | appendEntries args r hr =>
    rcases Server.handleAppendEntries_mem hr he with he | he
    · exact .kept he
    · exact .received args rfl he
  | requestVoteReply t reply =>
    generalize hs' : n.server.handleRequestVoteReply t reply = s' at he
    cases Server.handleRequestVoteReply_way hs' with
    | stepsDown | ignored | counted => exact .kept he
    | won => exact .of_won (s := n.server.countVote) rfl rfl he
  | appendEntriesReply peer args reply =>
    rw [Server.handleAppendEntriesReply_logEntries] at he
    exact .kept he
  | electionTimeout r hr =>
    cases Server.electionTimeout_way hr with
    | alone => exact .of_won (s := n.server.becomeCandidate) rfl rfl he
    | campaigns => exact .kept he
  | proposed request w s hp => exact appended hp List.mem_cons_self he
  | atOnce request w s hp => exact appended hp List.mem_cons_self he
  | contactFailed | sendRequestVotes | replicate | refused | wake => exact .kept he

/-! ## Origins -/

namespace Cluster

variable {conf : Config} {c c' : Cluster} {tr evs : List (ℕ × Node.Event)} {a : Abstract}

/-- **The event that an entry goes back to**: its node has won the term of the entry, and has made
the entry as its NOOP, right behind the log with which it won, or for a client. -/
inductive Origin (past : List (ℕ × Node.Event)) (e : LogEntry) : Prop
  | noop (i : ℕ) (log : List LogEntry) (hwon : (i, .effect (.becomeLeader e.term log)) ∈ past)
      (hindex : e.index = log.length + 1) (hcommand : e.command = .noop)
  | request (i : ℕ) (w : Waiter) (log : List LogEntry)
      (hwon : (i, .effect (.becomeLeader e.term log)) ∈ past)
      (hproposed : (i, .output (.proposed w)) ∈ past) (hentry : e = w.entry)

theorem Origin.mono {past past' : List (ℕ × Node.Event)} {e : LogEntry} (h : Origin past e)
    (hsub : past ⊆ past') : Origin past' e := by
  cases h with
  | noop i log hwon hindex hcommand => exact .noop i log (hsub hwon) hindex hcommand
  | request i w log hwon hproposed hentry => exact .request i w log (hsub hwon) (hsub hproposed) hentry

/-- **The invariant**: every entry has an origin. -/
structure Originates (conf : Config) (tr : List (ℕ × Node.Event)) (c : Cluster) : Prop where
  log : ∀ i ∈ conf.members, ∀ e ∈ (c.hosts i).server.logEntries, Origin tr e
  network : ∀ {caller b callee args}, .appendEntries caller b callee args ∈ c.network →
    ∀ e ∈ args.entries, Origin tr e

/-- A leader sends entries of its own log. -/
theorem Server.mem_of_appendEntriesArgs {s : Server} {peer : ℕ} {args : AppendEntriesArgs}
    (h : s.appendEntriesArgs peer = some args) : ∀ e ∈ args.entries, e ∈ s.logEntries := by
  unfold Server.appendEntriesArgs at h
  split at h
  · exact absurd h (by simp)
  · rw [← Option.some.inj h]
    exact fun e he => List.mem_of_mem_drop he

/-- A section of a member keeps the origins. -/
theorem Originates.run (h : Originates conf tr c) (href : Refined conf tr c a)
    {i : ℕ} {g : Trigger} {x : Input} {net : List Packet} {m : Node} {os : List Output}
    (hi : i ∈ conf.members) (hadm : c.Admissible (.run i g)) (hfetch : c.fetch i g = some (x, net))
    (hm : (c.hosts i).handle x = some (m, os)) {e : LogEntry} (he : e ∈ m.server.logEntries)
    {evs : List (ℕ × Node.Event)}
    (hevs : evs = tag i (m.server.effects.map .effect ++ os.map .output)) : Origin (tr ++ evs) e := by
  cases Node.handle_entries hm he with
  | kept he => exact (h.log i hi e he).mono (List.subset_append_left _ _)
  | received args hx he =>
    subst hx
    rcases fetch_eq_some hfetch with ⟨-, hloc, -⟩ | ⟨p, rfl, hp, hx, -⟩
    · exact absurd hloc (by simp [Input.isLocal])
    cases hx with
    | appendEntries caller b args' _ hargs =>
      rw [href.decodes hp hadm] at hargs
      rw [← Option.some.inj hargs] at he
      exact (h.network hp e he).mono (List.subset_append_left _ _)
  | won hmark he =>
    subst he
    refine .noop i (c.hosts i).server.logEntries (List.mem_append_right _ ?_) ?_ rfl
    · rw [hevs, mem_tag]
      exact ⟨rfl, by simpa using hmark⟩
    · have hindexed := href.sim.indexed_log (href.sim.logInv.log_matched i)
      rw [← (href.refines hi).log] at hindexed
      show (_ + 1) % 2 ^ 64 = _
      rw [hindexed.getLastLogIndex, Nat.mod_eq_of_lt hadm.2.1]
  | proposed w hw he =>
    obtain ⟨request, hp⟩ := (Node.handle_serves hm).of_proposed hw
    obtain ⟨hweq, hrole, -⟩ := Server.propose_eq_some hp
    obtain ⟨log, hlog⟩ := href.elections.leads i hi hrole
    refine .request i w log (List.mem_append_left _ ?_) (List.mem_append_right _ ?_) he
    · rw [he, hweq]
      exact mem_effects.mp hlog
    · rw [hevs, mem_tag]
      exact ⟨rfl, by simpa using hw⟩

/-- What a section sends stands in the log of its node. -/
theorem Sends.mem_log {i : ℕ} {n : Node} {g : Trigger} {x : Input} {sent : List Packet}
    (h : Sends i n g x sent) {caller b callee : ℕ} {args : AppendEntriesArgs}
    (hp : .appendEntries caller b callee args ∈ sent) : ∀ e ∈ args.entries, e ∈ n.server.logEntries := by
  cases h with
  | none | voteReply | appendReply => exact absurd hp (by simp)
  | votes =>
    obtain ⟨k, -, heq⟩ := List.mem_map.mp hp
    exact absurd heq (by simp)
  | append peer args' hx hpeer hargs =>
    obtain ⟨-, -, -, rfl⟩ := Packet.appendEntries.inj (List.mem_singleton.mp hp)
    exact Server.mem_of_appendEntriesArgs hargs

theorem Originates.step (h : Originates conf tr c) (href : Refined conf tr c a) {x : Action}
    (hadm : c.Admissible x) (hs : step conf c x = some (c', evs)) :
    Originates conf (tr ++ evs) c' := by
  have old : ∀ {e}, Origin tr e → Origin (tr ++ evs) e :=
    fun he => he.mono (List.subset_append_left _ _)
  cases step_moves hs with
  | run i g x net m os hi hfetch hm =>
    refine ⟨forall_mem_update (Q := fun _ n => ∀ e ∈ n.server.logEntries, Origin _ e)
      (fun e he => h.run href hi hadm hfetch hm he rfl)
      fun j hj _ e he => old (h.log j hj e he), fun hp e he => ?_⟩
    rcases List.mem_append.mp hp with hp | hp
    · exact old (h.network (fetch_subset hfetch hp) e he)
    · exact old (h.log i hi e ((handle_sends hfetch hm).mem_log hp e he))
  | crash i retries hi =>
    have hmir := href.mirrored i hi
    have hlog := (Node.restart_mirrored (n := c.hosts i) retries hmir.disk hmir.logged.entries).2
    refine ⟨forall_mem_update (Q := fun _ n => ∀ e ∈ n.server.logEntries, Origin _ e)
      (fun e he => ?_) fun j hj _ e he => old (h.log j hj e he),
      fun hp e he => old (h.network hp e he)⟩
    rw [hlog] at he
    exact old (h.log i hi e he)
  | crashIn i g p retries x net m os hi hfetch hm => exact absurd hadm id
  | lose p hp =>
    exact ⟨fun i hi e he => old (h.log i hi e he),
      fun hq e he => old (h.network (List.erase_subset hq) e he)⟩

theorem originates (h : Run (machine conf) Admissible tr c) : Originates conf tr c := by
  refine h.invariant (I := fun tr c => Originates conf tr c) ?_ ?_
  · refine ⟨fun i hi e he => ?_, fun hp => absurd hp (by simp [machine, initial])⟩
    have hlog : (Node.start i (conf.peers i) Files.none 0).server.logEntries = [] :=
      (Node.start_mirrored i (conf.peers i) 0 rfl (by simp)).2
    rw [machine, initial, hlog] at he
    exact absurd he (by simp)
  · intro tr c x c' evs hrun hI hadm hs
    obtain ⟨a, ha⟩ := refined hrun
    exact hI.step ha hadm hs

/-- **Every entry has an origin**: whatever stands in the log of a member, in memory or on disk, or
is on its way, is the NOOP of the winner of its term, or was made by this node for a client. -/
theorem entries_originate (h : Run (machine conf) Admissible tr c) :
    (∀ i ∈ conf.members, ∀ l, c.IsLog i l → ∀ e ∈ l, Origin tr e) ∧
      ∀ caller b callee args, .appendEntries caller b callee args ∈ c.network →
        ∀ e ∈ args.entries, Origin tr e := by
  obtain ⟨a, ha⟩ := refined h
  have horig := originates h
  refine ⟨fun i hi l hl e he => ?_, fun _ _ _ _ hp => horig.network hp⟩
  rcases hl with rfl | rfl
  · exact horig.log i hi e he
  · have hmir := ha.mirrored i hi
    rw [readLogs_of_logBytes hmir.disk hmir.logged.entries] at he
    exact horig.log i hi e he

/-- A value is stored, and node 2 has a copy of it. -/
theorem entries_originate_put : ∃ tr c, Run (machine .three) Admissible tr c ∧
    (c.hosts 2).server.logEntries =
      [⟨1, 1, .noop⟩, ⟨1, 2, (Request.put [107] [118]).command⟩] ∧
    (∀ i ∈ Config.three.members, ∀ l, c.IsLog i l → ∀ e ∈ l, Origin tr e) ∧
      ∀ caller b callee args, .appendEntries caller b callee args ∈ c.network →
        ∀ e ∈ args.entries, Origin tr e := by
  let put : LogEntry := ⟨1, 2, (Request.put [107] [118]).command⟩
  obtain ⟨tr, c, hrun, h⟩ := Run.exists_of_exec admissible_of_admits (M := machine .three)
    (fun c _ => decide ((c.hosts 2).server.logEntries =
      [⟨1, 1, .noop⟩, ⟨1, 2, (Request.put [107] [118]).command⟩]))
    (firstLeader ++ [.run 1 (.thread (.propose (.put [107] [118])))] ++
      exchange 1 2 ⟨1, 1, 1, 1, [put], 1⟩ true)
    (by decide +kernel)
  exact ⟨tr, c, hrun, of_decide_eq_true h, entries_originate hrun⟩

end Cluster

end RaftConsensus
