import RaftConsensus.Reconcile
import RaftConsensus.Refinement

/-!
# Sections are steps of the protocol

Each helper of the source that a section is made of is a few steps of the protocol by the
node that runs it:

* a later term (`Server.adoptTerm`) is `newTerm`, a granted vote is `vote`, or nothing if the
  same vote was given before, and a candidacy is both;
* `becomeLeader` is `elect` and `append`, and a client's command is `append`;
* steps 4 and 5 of `handleAppendEntries` are `accept`, by `Server.reconcile_drop`;
* `advanceCommit` is `addCommit` and `learn`, and step 6 of `handleAppendEntries` is `learn`.

What a helper needs of the abstract state, it gets from the relation.
-/

namespace RaftConsensus

open Protocol (Reachable Confined Grows LogInv SafetyInv UpToDate lastTerm)

/-! ## Closed forms -/

namespace Server

/-- The server in a later term `t`, as a follower. -/
def adoptTerm (s : Server) (t leaderId : ℕ) : Server :=
  { s with
    role := .follower
    metadata := { s.metadata with currentTerm := t, votedFor := 0 }
    currentLeaderId := leaderId
    effects := s.effects ++ [.updateMetaData { s.metadata with currentTerm := t, votedFor := 0 }] }

theorem stepDown_eq (s : Server) (t : ℕ) : s.stepDown t = s.adoptTerm t 0 := rfl

theorem recognizeLeader_eq (s : Server) (args : AppendEntriesArgs) :
    s.recognizeLeader args =
      if s.metadata.currentTerm < args.term then s.adoptTerm args.term args.leaderId
      else { s with role := .follower, currentLeaderId := args.leaderId } := by
  unfold recognizeLeader
  dsimp only
  split <;> rfl

/-- **Raising the commit index and applying**, in closed form. -/
theorem applyCommitted_raised {s : Server} {n : ℕ} (hlt : s.metadata.lastApplied < n)
    (hlen : n ≤ s.logEntries.length) :
    applyCommitted { s with metadata := { s.metadata with commitIndex := n } } =
      let es := (s.logEntries.take n).drop s.metadata.lastApplied
      let m := { s.metadata with commitIndex := n, lastApplied := n }
      { s with
        stateMachine := es.foldl (fun m e => m.apply e.command) s.stateMachine
        metadata := m
        effects := s.effects ++ (appliedMarks s.metadata.lastApplied es ++ [.updateMetaData m]) } := by
  have hcount : ((s.logEntries.take n).drop s.metadata.lastApplied).length =
      n - s.metadata.lastApplied := by
    rw [List.length_drop, List.length_take, min_eq_left hlen]
  have hsum : s.metadata.lastApplied + (n - s.metadata.lastApplied) = n := by omega
  rw [applyCommitted_eq, unapplied]
  dsimp only
  rw [if_neg (List.ne_nil_of_length_pos (by omega))]
  simp [applied, persistMetaData, emit, min_eq_left hlen, hsum]

end Server

/-- Replaying more of a log. -/
theorem KVStateMachine.replay_take (log : List LogEntry) {k n : ℕ} (hkn : k ≤ n) :
    ((log.take n).drop k).foldl (fun m e => m.apply e.command) (replay (log.take k)) =
      replay (log.take n) := by
  have hsplit : log.take n = log.take k ++ (log.take n).drop k := by
    conv_lhs => rw [← List.take_append_drop k (log.take n), List.take_take, min_eq_left hkn]
  conv_rhs => rw [hsplit]
  rw [replay, replay, List.foldl_append]

/-! ## One helper after the other -/

section Helpers

variable {conf : Config} {past : ℕ → List Effect} {files : ℕ → Files} {net : List Packet}
  {servers : ℕ → Server} {a a' : Abstract} {i : ℕ} {s s' : Server}

theorem Server.Standing.of_follower (h : s.role = .follower) : s.Standing a net i where
  unelected hr := absurd (h.symm.trans hr) (by decide)
  upToDate hr := absurd (h.symm.trans hr) (by decide)
  requests hr := absurd (h.symm.trans hr) (by decide)
  leads hr := absurd (h.symm.trans hr) (by decide)
  matched hr := absurd (h.symm.trans hr) (by decide)
  next hr := absurd (h.symm.trans hr) (by decide)

theorem Server.Standing.of_candidate (h : s.role = .candidate)
    (hnot : a.leader (a.term i) ≠ some i)
    (hup : ∀ v, a.voted v (a.term i) = some i → UpToDate (a.log i) (a.voteLog v (a.term i)))
    (hreq : ∀ b v args, .requestVote i b v args ∈ net → args.term = a.term i →
      args.lastLogIndex = (a.log i).length ∧ args.lastLogTerm = lastTerm (a.log i)) :
    s.Standing a net i where
  unelected _ := hnot
  upToDate _ := hup
  requests _ := hreq
  leads hr := absurd (h.symm.trans hr) (by decide)
  matched hr := absurd (h.symm.trans hr) (by decide)
  next hr := absurd (h.symm.trans hr) (by decide)

theorem Server.Standing.of_leader (h : s.role = .leader) (hlead : a.leader (a.term i) = some i)
    (hmatched : ∀ p ∈ s.peers, s.matchIndex p ≤ a.acked p (a.term i))
    (hnext : ∀ p ∈ s.peers, s.nextIndex p ≤ (a.log i).length + 1) : s.Standing a net i where
  unelected hr := absurd (h.symm.trans hr) (by decide)
  upToDate hr := absurd (h.symm.trans hr) (by decide)
  requests hr := absurd (h.symm.trans hr) (by decide)
  leads _ := hlead
  matched _ := hmatched
  next _ := hnext

/-- New effects are explained, and what they write does not run ahead. -/
theorem Server.Accounted.extend {past : List Effect} {files : Files}
    (h : s.Accounted conf a net i past files) (hs : SafetyInv conf.Majority a) (hg : Grows a a')
    (hrefines : s'.Refines conf a' i) (hstanding : s'.Standing a' net i) (es : List Effect)
    (heff : s'.effects = s.effects ++ es) (hes : ∀ e ∈ es, e.Explained a' i)
    (hle : s.metadata.commitIndex ≤ s'.metadata.commitIndex)
    (hwrites : ∀ m, .updateMetaData m ∈ es → m.commitIndex ≤ s'.metadata.commitIndex) :
    s'.Accounted conf a' net i past files where
  refines := hrefines
  standing := hstanding
  explained e he := by
    rw [heff, ← List.append_assoc, List.mem_append] at he
    rcases he with he | he
    · exact (h.explained e he).mono hg hs
    · exact hes e he
  disk := by
    rw [heff, perform_append]
    exact diskCommit_perform_le (h.disk.trans hle) hwrites

/-- A change that the protocol does not see. -/
theorem Sim.unseen (h : Sim conf past files net (Function.update servers i s) a)
    (hi : i ∈ conf.members) (hrefines : s'.Refines conf a i) (hstanding : s'.Standing a net i)
    (heff : s'.effects = s.effects) : Sim conf past files net (Function.update servers i s') a := by
  have hself := h.accounted_self hi
  refine h.move_to hi h.reachable (Confined.refl i a) ?_ (heff ▸ List.Subset.refl _)
    (fun _ _ _ _ hv => Or.inl hv) (fun t => ⟨h.indexed t, h.short t⟩) (fun hv => Or.inl hv)
    fun hn => Or.inl hn
  refine hself.extend h.safetyInv (Grows.refl a) hrefines hstanding [] (by rw [heff, List.append_nil])
    (by simp) ?_ (by simp)
  rw [hself.refines.commit, hrefines.commit]

/-- **A later term.** -/
theorem Sim.adoptTerm (h : Sim conf past files net (Function.update servers i s) a)
    (hi : i ∈ conf.members) {t : ℕ} (hlt : s.metadata.currentTerm < t) (l : ℕ) :
    Simulated conf past files net servers i a (s.adoptTerm t l) := by
  have hself := h.accounted_self hi
  have href := hself.refines
  have hlt' : a.term i < t := href.term ▸ hlt
  have hg := Confined.newTerm h.logInv hlt'
  refine h.move_of_eq hi (.step h.reachable (.newTerm a i t hlt')) hg ?_
    (List.subset_append_left _ _) rfl rfl rfl
  refine hself.extend h.safetyInv hg.grows ?_ (.of_follower rfl)
    [.updateMetaData { s.metadata with currentTerm := t, votedFor := 0 }] rfl ?_ le_rfl ?_
  · have hterm : (a.newTerm i t).term i = t := by simp [Protocol.State.newTerm]
    -- nobody votes in a term that is still to come
    have hfree : a.voted i t = none := by
      rcases hv : a.voted i t with _ | c
      · rfl
      · exact absurd (h.logInv.vote_le hv) (by omega)
    exact
      { nodeId := href.nodeId
        peers := href.peers
        term := hterm.symm
        vote := by rw [hterm]; exact hfree
        log := href.log
        commit := href.commit
        lastApplied := href.lastApplied
        stateMachine := href.stateMachine }
  · intro e he
    rw [List.mem_singleton.mp he]
    trivial
  · intro m hm
    rw [Effect.updateMetaData.inj (List.mem_singleton.mp hm)]
    exact le_rfl

/-- **The leader of a term is recognised.** -/
theorem Sim.recognizeLeader (h : Sim conf past files net (Function.update servers i s) a)
    (hi : i ∈ conf.members) (args : AppendEntriesArgs) :
    Simulated conf past files net servers i a (s.recognizeLeader args) := by
  rw [Server.recognizeLeader_eq]
  split
  · next hlt => exact h.adoptTerm hi hlt args.leaderId
  · have hfollow : Sim conf past files net (Function.update servers i
        { s with role := .follower, currentLeaderId := args.leaderId }) a :=
      h.unseen hi { h.refines hi with } (.of_follower rfl) rfl
    exact hfollow.simulated

theorem Server.grantVote_effects (s : Server) (c : ℕ) : (s.grantVote c).effects = s.effects ++
    [.updateMetaData { s.metadata with votedFor := c }, .votedFor c s.metadata.currentTerm] := by
  simp [grantVote, persistMetaData, emit]

/-- The commit index on disk stays behind the one in memory. -/
theorem Server.grantVote_writes {s : Server} {c : ℕ} {m : MetaData}
    (h : .updateMetaData m ∈ [Effect.updateMetaData { s.metadata with votedFor := c },
      .votedFor c s.metadata.currentTerm]) : m.commitIndex ≤ s.metadata.commitIndex := by
  simp only [List.mem_cons, Effect.updateMetaData.injEq, reduceCtorEq, List.not_mem_nil,
    or_false] at h
  rw [h]

/-- A vote that is free is given. -/
theorem Sim.grantVote_free (h : Sim conf past files net (Function.update servers i s) a)
    (hi : i ∈ conf.members) {c : ℕ} (hc : c ≠ 0) (hci : c ≠ i)
    (hzero : s.metadata.votedFor = 0) (hle : a.term i ≤ a.term c)
    (hup : (servers c).role = .candidate → a.term c = a.term i →
      UpToDate (a.log c) (a.log i)) :
    Simulated conf past files net servers i a (s.grantVote c) := by
  have hself := h.accounted_self hi
  have href := hself.refines
  have hst := hself.standing
  have heff := s.grantVote_effects c
  have hnone : a.voted i (a.term i) = none := by rw [href.vote, if_pos hzero]
  have hg := Confined.vote h.logInv (c := c) hnone
  have hself' : (a.vote i c).voted i (a.term i) = some c := by
    simp [Protocol.State.vote, Protocol.State.set₂]
  have hother : ∀ v, v ≠ i → (a.vote i c).voted v = a.voted v := fun v hv => hg.voted v hv
  refine h.move hi (.step h.reachable (.vote a i c hnone)) hg ?_
    (heff ▸ List.subset_append_left _ _) ?_ (fun t => ⟨h.indexed t, h.short t⟩) ?_
    (fun hn => Or.inl hn)
  · refine hself.extend h.safetyInv hg.grows ?_ ?_ _ heff ?_ le_rfl fun _ => Server.grantVote_writes
    · exact
        { href with
          vote := by
            show (a.vote i c).voted i (a.term i) = if c = 0 then none else some c
            rw [if_neg hc]
            exact hself' }
    · exact
        { hst with
          upToDate := by
            intro hr v hv
            by_cases hvi : v = i
            · subst hvi
              exact absurd (Option.some.inj (hself'.symm.trans hv)) hci
            · have hv' : a.voted v (a.term i) = some i := by
                rw [← hother v hvi]
                exact hv
              have hlog : (a.vote i c).voteLog v = a.voteLog v := hg.voteLog v hvi
              show UpToDate (a.log i) ((a.vote i c).voteLog v (a.term i))
              rw [hlog]
              exact hst.upToDate hr v hv' }
    · intro e he
      rcases List.mem_cons.mp he with rfl | he
      · trivial
      · rw [List.mem_singleton.mp he, href.term]
        exact hself'
  · intro j hj hji hrole hv
    by_cases ht : a.term j = a.term i
    · rw [ht, hself'] at hv
      obtain rfl := Option.some.inj hv
      right
      have hlog : (a.vote i c).voteLog i (a.term c) = a.log i := by
        simp [Protocol.State.vote, Protocol.State.set₂, ht]
      rw [hlog]
      exact hup hrole ht
    · left
      have hsame : (a.vote i c).voted i (a.term j) = a.voted i (a.term j) := by
        simp [Protocol.State.vote, Protocol.State.set₂, ht]
      rwa [hsame] at hv
  · intro t d hv
    by_cases ht : t = a.term i
    · subst ht
      obtain rfl := Option.some.inj (hself'.symm.trans hv)
      exact Or.inr hle
    · left
      have hsame : (a.vote i c).voted i t = a.voted i t := by
        simp [Protocol.State.vote, Protocol.State.set₂, ht]
      rwa [hsame] at hv

/-- The vote was given to this candidate before. -/
theorem Sim.grantVote_again (h : Sim conf past files net (Function.update servers i s) a)
    (hi : i ∈ conf.members) {c : ℕ} (hc : c ≠ 0) (hsame : s.metadata.votedFor = c) :
    Simulated conf past files net servers i a (s.grantVote c) := by
  have hself := h.accounted_self hi
  have href := hself.refines
  have hst := hself.standing
  have heff := s.grantVote_effects c
  refine h.move_of_eq hi h.reachable (Confined.refl i a) ?_
    (heff ▸ List.subset_append_left _ _) rfl rfl rfl
  refine hself.extend h.safetyInv (Grows.refl a) ?_ { hst with } _ heff ?_ le_rfl fun _ => Server.grantVote_writes
  · exact
      { href with
        vote := by
          show a.voted i (a.term i) = if c = 0 then none else some c
          rw [href.vote, hsame] }
  · intro e he
    rcases List.mem_cons.mp he with rfl | he
    · trivial
    · rw [List.mem_singleton.mp he, href.term]
      show a.voted i (a.term i) = some c
      rw [href.vote, hsame, if_neg hc]

/-- **A vote is granted**, to a candidate that is as up to date. -/
theorem Sim.grantVote (h : Sim conf past files net (Function.update servers i s) a)
    (hi : i ∈ conf.members) {c : ℕ} (hc : c ≠ 0) (hci : c ≠ i)
    (hfree : s.metadata.votedFor = 0 ∨ s.metadata.votedFor = c) (hle : a.term i ≤ a.term c)
    (hup : (servers c).role = .candidate → a.term c = a.term i →
      UpToDate (a.log c) (a.log i)) :
    Simulated conf past files net servers i a (s.grantVote c) := by
  by_cases hzero : s.metadata.votedFor = 0
  · exact h.grantVote_free hi hc hci hzero hle hup
  · exact h.grantVote_again hi hc (hfree.resolve_left hzero)

/-- **A candidacy**, in a term that nobody has voted for the node in. -/
theorem Sim.becomeCandidate (h : Sim conf past files net (Function.update servers i s) a)
    (hi : i ∈ conf.members) (hwrap : s.metadata.currentTerm + 1 < 2 ^ 64)
    (hnet : ∀ b v args, .requestVote i b v args ∈ net → args.term ≤ a.term i) :
    Simulated conf past files net servers i a s.becomeCandidate := by
  have hself := h.accounted_self hi
  have href := hself.refines
  obtain ⟨t, ht, hlt⟩ : ∃ t, (s.metadata.currentTerm + 1) % 2 ^ 64 = t ∧ a.term i < t :=
    ⟨_, rfl, by rw [Nat.mod_eq_of_lt hwrap, href.term]; exact Nat.lt_succ_self _⟩
  have hterm : (a.newTerm i t).term i = t := by simp [Protocol.State.newTerm]
  have hnone : (a.newTerm i t).voted i ((a.newTerm i t).term i) = none := by
    rw [hterm]
    rcases hv : a.voted i t with _ | c
    · exact hv
    · exact absurd (h.logInv.vote_le hv) (by omega)
  have hnew := Protocol.Step.newTerm (Q := conf.Majority) a i t hlt
  have hr := Protocol.Reachable.step h.reachable hnew
  have hvote := Confined.vote hr.logInv (c := i) hnone
  have hg := (Confined.newTerm h.logInv hlt).trans hvote
  have hterm' : ((a.newTerm i t).vote i i).term i = t := hterm
  have hvoted : ((a.newTerm i t).vote i i).voted i t = some i := by
    simp [Protocol.State.vote, Protocol.State.set₂, hterm]
  have hold : ∀ v u c, ((a.newTerm i t).vote i i).voted v u = some c →
      a.voted v u = some c ∨ v = i ∧ u = t ∧ c = i := by
    intro v u c hv
    simp only [Protocol.State.vote, Protocol.State.set₂_apply, hterm] at hv
    split at hv
    · next hvu => exact Or.inr ⟨hvu.1, hvu.2, (Option.some.inj hv).symm⟩
    · exact Or.inl hv
  have heff : s.becomeCandidate.effects = s.effects ++ [.updateMetaData s.becomeCandidate.metadata,
      .candidate s.becomeCandidate.metadata.currentTerm] := by
    simp [Server.becomeCandidate, Server.persistMetaData, Server.emit]
  refine h.move hi (.step hr (.vote _ i i hnone)) hg ?_ (heff ▸ List.subset_append_left _ _) ?_
    (fun u => ⟨h.indexed u, h.short u⟩) ?_ (fun hn => Or.inl hn)
  · refine hself.extend h.safetyInv hg.grows ?_ ?_ _ heff ?_ le_rfl ?_
    · exact
        { nodeId := href.nodeId
          peers := href.peers
          term := ht.trans hterm'.symm
          vote := by
            show _ = if s.nodeId = 0 then none else some s.nodeId
            rw [hterm', hvoted, href.nodeId, if_neg (conf.ne_zero i hi)]
          log := href.log
          commit := href.commit
          lastApplied := href.lastApplied
          stateMachine := href.stateMachine }
    · refine .of_candidate rfl (fun hl => ?_) (fun v hv => ?_) fun b v args hp hargs => ?_
      · rw [hterm'] at hl
        exact absurd (h.logInv.leader_le hl) (by omega)
      · rw [hterm'] at hv ⊢
        rcases hold v t i hv with hv | ⟨rfl, -, -⟩
        · exact absurd (h.candidates hv) (by omega)
        · have hlog : ((a.newTerm v t).vote v v).voteLog v t = a.log v := by
            simp [Protocol.State.vote, Protocol.State.set₂, Protocol.State.newTerm]
          rw [hlog]
          exact UpToDate.refl _
      · rw [hterm'] at hargs
        exact absurd (hnet b v args hp) (by omega)
    · intro e he
      rcases List.mem_cons.mp he with rfl | he
      · trivial
      · rw [List.mem_singleton.mp he]
        show ((a.newTerm i t).vote i i).voted i ((s.metadata.currentTerm + 1) % 2 ^ 64) = some i
        rw [ht, hvoted]
    · intro m hm
      simp only [List.mem_cons, Effect.updateMetaData.injEq, reduceCtorEq, List.not_mem_nil,
        or_false] at hm
      rw [hm]
  · intro j hj hji hrole hv
    rcases hold i _ j hv with hv | ⟨-, -, rfl⟩
    · exact Or.inl hv
    · exact absurd rfl hji
  · intro u c hv
    rcases hold i u c hv with hv | ⟨-, rfl, rfl⟩
    · exact Or.inl hv
    · exact Or.inr hterm'.ge

/-! ### Appending -/

/-- The log of the appending leader's term stays indexed. -/
theorem Sim.indexed_append (h : Sim conf past files net servers a) {e : LogEntry}
    (hindex : e.index = (a.log i).length + 1) (hlen : (a.log i).length + 1 < 2 ^ 64) (t : ℕ) :
    Indexed ((a.append i e).leaderLog t) ∧ ((a.append i e).leaderLog t).length < 2 ^ 64 := by
  by_cases ht : t = a.term i
  · subst ht
    simp only [Protocol.State.append, Function.update_self]
    refine ⟨(h.indexed_log (h.logInv.log_matched i)).append_singleton hindex, ?_⟩
    rw [List.length_append, List.length_singleton]
    exact hlen
  · simp only [Protocol.State.append, ne_eq, ht, not_false_eq_true, Function.update_of_ne]
    exact ⟨h.indexed t, h.short t⟩

/-- The index of the next entry. -/
theorem Sim.nextLogIndex_eq (h : Sim conf past files net servers a)
    (href : s.Refines conf a i) (hlen : (a.log i).length + 1 < 2 ^ 64) :
    s.nextLogIndex = (a.log i).length + 1 := by
  have hindexed : Indexed s.logEntries := href.log ▸ h.indexed_log (h.logInv.log_matched i)
  rw [Server.nextLogIndex, hindexed.getLastLogIndex, href.log, Nat.mod_eq_of_lt hlen]

/-- Memory after an append. -/
theorem Server.Refines.append (h : s.Refines conf a i) (hcommit : a.commit i ≤ (a.log i).length)
    (e : LogEntry) : (s.appendEntry e).Refines conf (a.append i e) i where
  nodeId := h.nodeId
  peers := h.peers
  term := h.term
  vote := h.vote
  log := by
    show s.logEntries ++ [e] = _
    rw [h.log]
    simp [Protocol.State.append]
  commit := h.commit
  lastApplied := h.lastApplied
  stateMachine := by
    show s.stateMachine = _
    rw [h.stateMachine]
    simp only [Protocol.State.append, Function.update_self]
    rw [List.take_append_of_le_length hcommit]

/-- **A leader appends an entry.** -/
theorem Sim.appendEntry (h : Sim conf past files net (Function.update servers i s) a)
    (hi : i ∈ conf.members) (hrole : s.role = .leader) {e : LogEntry}
    (hterm : e.term = s.metadata.currentTerm) (hindex : e.index = s.nextLogIndex)
    (hlen : (a.log i).length + 1 < 2 ^ 64) :
    Simulated conf past files net servers i a (s.appendEntry e) := by
  have hself := h.accounted_self hi
  have href := hself.refines
  have hst := hself.standing
  have hlead := hst.leads hrole
  rw [h.nextLogIndex_eq href hlen] at hindex
  rw [href.term] at hterm
  have hg := Confined.append h.logInv hlead hterm
  have hlog : (a.append i e).log i = a.log i ++ [e] := by simp [Protocol.State.append]
  refine h.move hi (.step h.reachable (.append a i e hlead hterm)) hg ?_
    (List.subset_append_left _ _) (fun _ _ _ _ hv => Or.inl hv)
    (h.indexed_append hindex hlen) (fun hv => Or.inl hv) (fun hn => Or.inl hn)
  refine hself.extend h.safetyInv hg.grows (href.append (h.commit_le_log i) e) ?_ [.writelog e] rfl
    ?_ le_rfl (by simp)
  · refine .of_leader hrole hlead (hst.matched hrole) fun p hp => ?_
    rw [hlog, List.length_append, List.length_singleton]
    exact (hst.next hrole p hp).trans (Nat.le_succ _)
  · intro x hx
    rw [List.mem_singleton.mp hx]
    trivial

/-- An append right after the election starts from the log that the leader was elected with. -/
theorem leaderLog_elect_append (a : Abstract) (i : ℕ) (e : LogEntry) :
    ((a.elect i).append i e).leaderLog = (a.append i e).leaderLog := by
  simp [Protocol.State.append, Protocol.State.elect]

/-- Another winner of the term would share a voter. -/
theorem Sim.leader_eq_none (h : Sim conf past files net servers a) {V : Finset ℕ}
    (hV : conf.Majority V) (hvotes : ∀ v ∈ V, a.voted v (a.term i) = some i)
    (hunled : a.leader (a.term i) ≠ some i) : a.leader (a.term i) = none := by
  rcases hl : a.leader (a.term i) with _ | d
  · rfl
  · obtain ⟨W, hW, hd⟩ := h.safetyInv.elected hl
    obtain ⟨v, hvV, hvW⟩ := conf.majority_inter hV hW
    obtain rfl := Option.some.inj ((hvotes v hvV).symm.trans (hd v hvW).1)
    exact absurd hl hunled

/-- **An election is won**: the part of `becomeLeader` before `advanceCommit`. -/
theorem Sim.takeLead (h : Sim conf past files net (Function.update servers i s) a)
    (hi : i ∈ conf.members) (hrole : s.role = .candidate) {V : Finset ℕ} (hV : conf.Majority V)
    (hvotes : ∀ v ∈ V, a.voted v (a.term i) = some i) (hlen : (a.log i).length + 1 < 2 ^ 64) :
    Simulated conf past files net servers i a
      (s.takeLead.appendEntry s.takeLead.noop).resetPeers := by
  have hself := h.accounted_self hi
  have href := hself.refines
  have hst := hself.standing
  have hnone := h.leader_eq_none hV hvotes (hst.unelected hrole)
  have hup : ∀ v ∈ V, a.voted v (a.term i) = some i ∧
      UpToDate (a.log i) (a.voteLog v (a.term i)) :=
    fun v hv => ⟨hvotes v hv, hst.upToDate hrole v (hvotes v hv)⟩
  have hr := Protocol.Reachable.step h.reachable (.elect a i V hV hnone hup)
  have helect := Confined.elect h.logInv hnone hup
  have hterm : Protocol.Termed.term s.takeLead.noop = (a.elect i).term i := href.term
  have hlead : (a.elect i).leader ((a.elect i).term i) = some i := by
    simp [Protocol.State.elect]
  have happend := Confined.append hr.logInv hlead hterm
  have hg := helect.trans happend
  have href' : s.takeLead.Refines conf (a.elect i) i := { href with }
  have hlog : ((a.elect i).append i s.takeLead.noop).log i = a.log i ++ [s.takeLead.noop] := by
    simp [Protocol.State.append, Protocol.State.elect]
  have hindexed := h.indexed_log (h.logInv.log_matched i)
  have hindex : s.takeLead.noop.index = (a.log i).length + 1 :=
    show s.nextLogIndex = _ from h.nextLogIndex_eq href hlen
  refine h.move hi (.step hr (.append _ i _ hlead hterm)) hg ?_ ?_ (fun _ _ _ _ hv => Or.inl hv)
    ?_ (fun hv => Or.inl hv) (fun hn => Or.inl hn)
  · refine hself.extend h.safetyInv hg.grows ?_ ?_ [.becomeLeader s.metadata.currentTerm s.logEntries,
      .writelog s.takeLead.noop] ?_ ?_ le_rfl (by simp)
    · have := href'.append (h.commit_le_log i) s.takeLead.noop
      exact { this with }
    · refine .of_leader rfl hlead (fun p hp => ?_) fun p hp => ?_
      · have hp' : p ∈ s.peers := hp
        show (if p ∈ s.peers then 0 else s.matchIndex p) ≤ _
        rw [if_pos hp']
        exact Nat.zero_le _
      · have hp' : p ∈ s.peers := hp
        have hlast : Indexed (s.takeLead.appendEntry s.takeLead.noop).logEntries := by
          show Indexed (s.logEntries ++ [s.takeLead.noop])
          rw [href.log]
          exact hindexed.append_singleton hindex
        show (if p ∈ s.peers then (s.takeLead.appendEntry s.takeLead.noop).nextLogIndex
          else s.nextIndex p) ≤ _
        rw [if_pos hp', hlog, Server.nextLogIndex, hlast.getLastLogIndex]
        refine (Nat.mod_le _ _).trans ?_
        show (s.logEntries ++ [s.takeLead.noop]).length + 1 ≤ _
        rw [href.log]
    · simp [Server.resetPeers, Server.appendEntry, Server.emit, Server.takeLead]
    · intro e he
      rcases List.mem_cons.mp he with rfl | he
      · refine ⟨?_, ?_⟩
        · rw [href.term]
          exact hlead
        · rw [href.term, href.log]
          simp [Protocol.State.append, Protocol.State.elect]
      · rw [List.mem_singleton.mp he]
        trivial
  · simp [Server.resetPeers, Server.appendEntry, Server.emit, Server.takeLead]
  · intro t
    rw [leaderLog_elect_append]
    exact h.indexed_append hindex hlen t

/-! ### Committing -/

/-- **A commit index is raised**, and what is committed is applied. -/
theorem Sim.learn (h : Sim conf past files net (Function.update servers i s) a)
    (hi : i ∈ conf.members) {t m n : ℕ} (hc : (t, m) ∈ a.commits) (ht : t ≤ a.term i) (hn : n ≤ m)
    (heq : (a.log i).take n = (a.leaderLog t).take n) (hlt : a.commit i < n) :
    Simulated conf past files net servers i a
      (Server.applyCommitted { s with metadata := { s.metadata with commitIndex := n } }) := by
  have hself := h.accounted_self hi
  have href := hself.refines
  have hst := hself.standing
  have hg := Confined.learn i a n
  have hm := commit_le_leaderLog h.safetyInv hc
  have hlen : n ≤ (a.log i).length := by
    have := congrArg List.length heq
    rw [List.length_take, List.length_take] at this
    omega
  have hcommit : (a.learn i n).commit i = n := by simp [Protocol.State.learn]
  rw [Server.applyCommitted_raised (by rwa [href.lastApplied]) (by rwa [href.log]), href.lastApplied,
    href.log, href.stateMachine]
  dsimp only
  rw [KVStateMachine.replay_take (a.log i) hlt.le]
  refine h.move_of_eq hi (.step h.reachable (.learn a i t m n hc ht hn heq)) hg ?_
    (List.subset_append_left _ _) rfl rfl rfl
  refine hself.extend h.safetyInv hg.grows ?_ { hst with } _ rfl (fun e he => ?_) ?_ fun x hx => ?_
  · exact
      { nodeId := href.nodeId
        peers := href.peers
        term := href.term
        vote := href.vote
        log := rfl
        commit := hcommit.symm
        lastApplied := hcommit.symm
        stateMachine := by rw [hcommit]; rfl }
  · rcases List.mem_append.mp he with he | he
    · obtain ⟨j, x, hx, rfl⟩ := Server.getElem?_of_mem_appliedMarks he
      have hj := (List.getElem?_eq_some_iff.mp hx).1
      rw [List.length_drop, List.length_take] at hj
      rw [List.getElem?_drop, heq, List.getElem?_take_of_lt (by omega)] at hx
      exact ⟨t, m, x, hc, Nat.succ_pos _, by omega, hx, rfl⟩
    · rw [List.mem_singleton.mp he]
      trivial
  · show s.metadata.commitIndex ≤ n
    rw [href.commit]
    exact hlt.le
  · rcases List.mem_append.mp hx with hx | hx
    · exact absurd hx Server.mem_appliedMarks_updateMetaData
    · rw [Effect.updateMetaData.inj (List.mem_singleton.mp hx)]

/-- A mark, with the step of the protocol that it speaks of. -/
theorem Sim.mark (h : Sim conf past files net (Function.update servers i s) a)
    (hi : i ∈ conf.members) {t n : ℕ} (hlead : a.leader t = some i) {V : Finset ℕ}
    (hV : conf.Majority V) (hterm : ∃ e, (a.leaderLog t)[n]? = some e ∧ e.term = t)
    (hacks : ∀ v ∈ V, a.Acked v t (n + 1)) {log : List LogEntry}
    (hlog : log.take (n + 1) = (a.leaderLog t).take (n + 1)) :
    Sim conf past files net
      (Function.update servers i (s.emit (.advanceCommit t (n + 1) log))) (a.addCommit t (n + 1)) := by
  have hself := h.accounted_self hi
  have href := hself.refines
  have hg := Confined.addCommit hlead (n + 1)
  have hmem : (t, n + 1) ∈ (a.addCommit t (n + 1)).commits := Set.mem_insert _ _
  refine h.move_to hi (.step h.reachable (.addCommit a t n V hV hterm hacks)) hg ?_
    (List.subset_append_left _ _) (fun _ _ _ _ hv => Or.inl hv)
    (fun u => ⟨h.indexed u, h.short u⟩) (fun hv => Or.inl hv) fun hn => ?_
  · refine hself.extend h.safetyInv hg.grows { href with } { hself.standing with }
      [.advanceCommit t (n + 1) log] rfl (fun e he => ?_) le_rfl (by simp)
    rw [List.mem_singleton.mp he]
    exact ⟨hmem, hlog⟩
  · rcases Set.mem_insert_iff.mp hn with heq | hn
    · obtain ⟨rfl, rfl⟩ := Prod.mk.inj heq
      exact Or.inr ⟨log, List.mem_append_right _ (List.mem_singleton_self _)⟩
    · exact Or.inl hn

theorem Server.emit_raised (s : Server) (n : ℕ) (e : Effect) :
    ({ s with metadata := { s.metadata with commitIndex := n } }).emit e =
      { s.emit e with metadata := { (s.emit e).metadata with commitIndex := n } } := rfl

/-- **The commit rule counts acknowledgements.**  If the leader knows of a majority that has its
log up to `n`, a majority has acknowledged it. -/
theorem Sim.exists_acked (h : Sim conf past files net (Function.update servers i s) a)
    (hi : i ∈ conf.members) (hrole : s.role = .leader) {n : ℕ} (hpos : 0 < n)
    (hlen : n ≤ (a.leaderLog (a.term i)).length) (hmaj : s.majority ≤ s.replicas n) :
    ∃ V, conf.Majority V ∧ ∀ v ∈ V, a.Acked v (a.term i) n := by
  have href := h.refines hi
  have hst := h.standing hi
  let F : Finset ℕ := ((conf.peers i).filter fun p => decide (n ≤ s.matchIndex p)).toFinset
  have hF : ∀ p, p ∈ F ↔ p ∈ conf.peers i ∧ n ≤ s.matchIndex p := by
    intro p
    simp [F]
  have hiF : i ∉ F := fun hmem => ((conf.mem_peers i hi i).mp ((hF i).mp hmem).1).2 rfl
  have hcard : F.card = (conf.peers i).countP fun p => decide (n ≤ s.matchIndex p) := by
    rw [List.toFinset_card_of_nodup ((conf.nodup i hi).filter _), List.countP_eq_length_filter]
  refine ⟨insert i F, ⟨?_, ?_⟩, fun v hv => ⟨hlen, ?_⟩⟩
  · refine Finset.insert_subset hi fun p hp => ?_
    exact ((conf.mem_peers i hi p).mp ((hF p).mp hp).1).1
  · rw [Finset.card_insert_of_notMem hiF, hcard]
    rw [Server.majority, Server.replicas, href.peers, conf.length_peers hi] at hmaj
    omega
  · rcases Finset.mem_insert.mp hv with rfl | hv
    · exact Or.inr (hst.leads hrole)
    · obtain ⟨hp, hmatch⟩ := (hF v).mp hv
      exact Or.inl ⟨hmatch.trans (hst.matched hrole v (href.peers ▸ hp)), hpos⟩

/-- **`advanceCommit`.** -/
theorem Sim.advanceCommit (h : Sim conf past files net (Function.update servers i s) a)
    (hi : i ∈ conf.members) : Simulated conf past files net servers i a s.advanceCommit := by
  have href := h.refines hi
  rcases s.advanceCommit_cases with heq | ⟨n, hrole, hscan, heq⟩
  · rw [heq]
    exact h.simulated
  have hindexed : Indexed s.logEntries := href.log ▸ h.indexed_log (h.logInv.log_matched i)
  obtain ⟨hlt, hle, hterm, hmaj⟩ := Server.commitScan_eq_some hscan
  rw [hindexed.getLastLogIndex, href.log] at hle
  rw [href.commit] at hlt
  have hlead := (h.standing hi).leads hrole
  have hlog : a.log i = a.leaderLog (a.term i) := h.logInv.leader_log i hlead
  obtain ⟨V, hV, hacks⟩ := h.exists_acked hi hrole (by omega) (hlog ▸ hle) hmaj
  obtain ⟨k, rfl⟩ : ∃ k, n = k + 1 := ⟨n - 1, by omega⟩
  -- the entry is of the leader's own term
  have hentry : ∃ e, (a.leaderLog (a.term i))[k]? = some e ∧ e.term = a.term i := by
    obtain ⟨e, he⟩ : ∃ e, (a.log i)[k]? = some e := ⟨_, List.getElem?_eq_getElem hle⟩
    refine ⟨e, hlog ▸ he, ?_⟩
    rw [Server.termAt, if_neg (Nat.succ_ne_zero k), Nat.add_sub_cancel, href.log, he,
      href.term] at hterm
    exact hterm
  rw [heq, Server.commitTo, Server.emit_raised, href.term, href.log]
  have htake : (a.log i).take (k + 1) = (a.leaderLog (a.term i)).take (k + 1) := by rw [hlog]
  have hmark := h.mark hi hlead hV hentry hacks htake
  obtain ⟨a', hg, hsim⟩ := hmark.learn hi (t := a.term i) (n := k + 1) (Set.mem_insert _ _) le_rfl
    le_rfl htake hlt
  exact ⟨a', (Confined.addCommit hlead _).trans hg, hsim⟩

/-- **`becomeLeader`**, with the votes of a majority. -/
theorem Sim.becomeLeader (h : Sim conf past files net (Function.update servers i s) a)
    (hi : i ∈ conf.members) (hrole : s.role = .candidate) {V : Finset ℕ} (hV : conf.Majority V)
    (hvotes : ∀ v ∈ V, a.voted v (a.term i) = some i) (hlen : (a.log i).length + 1 < 2 ^ 64) :
    Simulated conf past files net servers i a s.becomeLeader :=
  (h.takeLead hi hrole hV hvotes hlen).trans fun hb => hb.advanceCommit hi

/-! ### Following -/

/-- **Steps 4 and 5 of `handleAppendEntries`**: the entries of the leader of the term are
accepted. -/
theorem Sim.storeEntries (h : Sim conf past files net (Function.update servers i s) a)
    (hi : i ∈ conf.members) (hrole : s.role = .follower) {args : AppendEntriesArgs}
    {L : List LogEntry} (hL : args.Payload a L) (hterm : args.term = a.term i)
    (hprev : s.prevMatches args = true) (hs : s.storeEntries args.entries = some s') :
    ∃ a', Confined i a a' ∧ Sim conf past files net (Function.update servers i s') a' ∧
      L <+: a'.log i ∧ L.length ≤ a'.acked i (a'.term i) ∧ s'.role = .follower := by
  classical
  have hself := h.accounted_self hi
  have href := hself.refines
  have hpre : L <+: a.leaderLog (a.term i) := hterm ▸ hL.isPrefix
  have hmatched := (h.logInv.leader_matched (a.term i)).of_isPrefix hpre
  have hmatch : Matching s.logEntries L :=
    href.log ▸ matching_of_matched (h.logInv.log_matched i) hmatched
  have htake := Server.take_eq_of_prevMatches hmatch hL.prev_le hL.prevTerm hprev
  have hrec := Server.reconcile_drop (h.indexed_log hmatched) hmatch htake false
  rw [← hL.entries, href.log] at hrec
  have hg := Confined.accept h.logInv hpre
  have hlog : (a.accept i L).log i = Protocol.State.adopt (a.log i) L := by
    simp [Protocol.State.accept]
  have hacked : L.length ≤ (a.accept i L).acked i ((a.accept i L).term i) := by
    simp [Protocol.State.accept, Protocol.State.set₂]
  have hkeep := Protocol.adopt_take_commit (fun _ _ => conf.majority_inter) h.logInv h.safetyInv hpre
  -- the loop computes what the protocol adopts
  obtain ⟨es, hs', hes⟩ : ∃ es,
      s' = { s with
        logEntries := Protocol.State.adopt (a.log i) L, effects := s.effects ++ es } ∧
      ∀ e ∈ es, ∃ l, e = .rewriteLog l := by
    unfold Server.storeEntries at hs
    rw [href.log] at hs
    by_cases hin : L <+: a.log i
    · rw [hrec, if_pos hin] at hs
      refine ⟨[], ?_, by simp⟩
      rw [← Option.some.inj hs, Protocol.State.adopt, if_pos hin, List.append_nil]
    · rw [hrec, if_neg hin] at hs
      refine ⟨[.rewriteLog L], ?_, fun e he => ⟨L, List.mem_singleton.mp he⟩⟩
      rw [← Option.some.inj hs, Protocol.State.adopt, if_neg hin]
      rfl
  subst hs'
  refine ⟨a.accept i L, hg, ?_, ?_, hacked, hrole⟩
  · refine h.move_to hi (.step h.reachable (.accept a i L hpre)) hg ?_
      (List.subset_append_left _ _) (fun _ _ _ _ hv => Or.inl hv)
      (fun t => ⟨h.indexed t, h.short t⟩) (fun hv => Or.inl hv) (fun hn => Or.inl hn)
    refine hself.extend h.safetyInv hg.grows ?_ (.of_follower hrole) es rfl (fun e he => ?_) le_rfl
      fun m hm => ?_
    · exact
        { href with
          log := hlog.symm
          stateMachine := by
            show s.stateMachine = _
            rw [hlog, href.stateMachine]
            exact congrArg KVStateMachine.replay hkeep.symm }
    · obtain ⟨l, rfl⟩ := hes e he
      trivial
    · obtain ⟨l, hl⟩ := hes _ hm
      exact absurd hl (by simp)
  · rw [hlog]
    exact Protocol.prefix_adopt _ _

/-- **Step 6 of `handleAppendEntries`**, once the log holds what was sent. -/
theorem Sim.followCommit (h : Sim conf past files net (Function.update servers i s) a)
    (hi : i ∈ conf.members) {args : AppendEntriesArgs} {L : List LogEntry}
    (hL : args.Payload a L) (hterm : args.term = a.term i) (hin : L <+: a.log i) :
    Simulated conf past files net servers i a (s.followCommit args) := by
  have href := h.refines hi
  unfold Server.followCommit
  split
  · next hlt =>
    dsimp only
    obtain ⟨n, hn⟩ : ∃ n, min (min args.leaderCommit
        ((args.prevLogIndex + args.entries.length) % 2 ^ 64)) s.getLastLogIndex = n := ⟨_, rfl⟩
    rw [hn]
    split
    · next hlt' =>
      rcases hL.commit with h0 | ⟨t, m, hc, ht, hm, heq⟩
      · omega
      have hlenL : args.prevLogIndex + args.entries.length = L.length := by
        rw [hL.entries, List.length_drop]
        have := hL.prev_le
        omega
      have hnL : n ≤ L.length := by
        rw [← hn, hlenL]
        exact (min_le_left _ _).trans ((min_le_right _ _).trans (Nat.mod_le _ _))
      have hnc : n ≤ args.leaderCommit := by
        rw [← hn]
        exact (min_le_left _ _).trans (min_le_left _ _)
      have htake : (a.log i).take n = (a.leaderLog t).take n := by
        obtain ⟨r, hr⟩ := hin
        rw [← hr, List.take_append_of_le_length hnL]
        exact take_eq_of_take_eq heq hnc
      have hself := h.accounted_self hi
      have hmark : Sim conf past files net
          (Function.update servers i (s.emit (.followCommit n))) a := by
        refine h.move_to hi h.reachable (Confined.refl i a) ?_ (List.subset_append_left _ _)
          (fun _ _ _ _ hv => Or.inl hv) (fun u => ⟨h.indexed u, h.short u⟩)
          (fun hv => Or.inl hv) (fun hn => Or.inl hn)
        refine hself.extend h.safetyInv (Grows.refl a) { href with } { hself.standing with }
          [.followCommit n] rfl (fun e he => ?_) le_rfl (by simp)
        rw [List.mem_singleton.mp he]
        exact ⟨t, m, hc, hnc.trans hm⟩
      rw [Server.emit_raised]
      exact hmark.learn hi hc (hterm ▸ ht) (hnc.trans hm) htake (href.commit ▸ hlt')
    · exact h.simulated
  · exact h.simulated

end Helpers

end RaftConsensus
