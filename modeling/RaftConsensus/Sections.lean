import RaftConsensus.Simulation

/-!
# Whole runs refine the protocol

The handlers are put together from their helpers, a section from its handler, and a step of
a cluster from a section, the messages that it sends, and the writes that it carries out.
A restart is `learn`: the commit index may go back to what was on disk, and the rest of the
protocol's state was on disk.

* `Cluster.Admissible`: what is assumed of a step.
* `Cluster.Refined`: the invariant of runs, and `Cluster.refined`, that it is one.
-/

namespace RaftConsensus

open Protocol (Reachable Confined Grows LogInv SafetyInv UpToDate lastTerm)

/-! ## Handlers -/

section Handlers

variable {conf : Config} {past : ℕ → List Effect} {files : ℕ → Files} {net : List Packet}
  {servers : ℕ → Server} {a : Abstract} {i : ℕ} {s : Server}

/-- `handleRequestVote`, of a request whose sender has told the truth about its log. -/
theorem Sim.handleRequestVote (h : Sim conf past files net (Function.update servers i s) a)
    (hi : i ∈ conf.members) {args : RequestVoteArgs} (hzero : args.candidateId ≠ 0)
    (hne : args.candidateId ≠ i) (hle : args.term ≤ a.term args.candidateId)
    (hreq : (servers args.candidateId).role = .candidate → args.term = a.term args.candidateId →
      args.lastLogIndex = (a.log args.candidateId).length ∧
        args.lastLogTerm = lastTerm (a.log args.candidateId)) :
    Simulated conf past files net servers i a (s.handleRequestVote args).2 := by
  have hmeet : Simulated conf past files net servers i a (s.meetTerm args.term) := by
    unfold Server.meetTerm
    split
    · next hlt => exact h.adoptTerm hi hlt 0
    · exact h.simulated
  generalize hr : s.handleRequestVote args = r
  cases Server.handleRequestVote_way hr with
  | old => exact h.simulated
  | denied => exact hmeet
  | granted hold hcan =>
    obtain ⟨b, hg, hb⟩ := hmeet
    have href := hb.refines hi
    have htermb : b.term i = args.term := href.term.symm.trans (Server.meetTerm_term hold)
    have hindexed : Indexed (s.meetTerm args.term).logEntries :=
      href.log ▸ hb.indexed_log (hb.logInv.log_matched i)
    obtain ⟨b', hg', hb'⟩ := hb.grantVote hi hzero hne (Server.voted_of_canVote hcan)
      (by rw [htermb, hg.term _ hne]; exact hle) fun hrole ht => by
        rw [htermb, hg.term _ hne] at ht
        obtain ⟨hlast, hlastTerm⟩ := hreq hrole ht.symm
        rw [hg.log _ hne]
        have hmine : (s.meetTerm args.term).getLastLogTerm = lastTerm (b.log i) := by
          rw [← href.log]
          rfl
        have hup := (Bool.and_eq_true_iff.mp hcan).2
        simp only [Bool.or_eq_true, Bool.and_eq_true, decide_eq_true_eq] at hup
        rw [hmine, hlast, hlastTerm, hindexed.getLastLogIndex, href.log] at hup
        exact hup
    exact ⟨b', hg.trans hg', hb'⟩

theorem Server.recognizeLeader_term {s : Server} {args : AppendEntriesArgs}
    (h : ¬ args.term < s.metadata.currentTerm) :
    (s.recognizeLeader args).metadata.currentTerm = args.term := by
  rw [recognizeLeader_eq]
  split
  · rfl
  · show s.metadata.currentTerm = args.term
    omega

/-- `handleAppendEntries`, of entries that the leader of their term has had.  What it accepts, it
has acknowledged. -/
theorem Sim.handleAppendEntries (h : Sim conf past files net (Function.update servers i s) a)
    (hi : i ∈ conf.members) {args : AppendEntriesArgs} {L : List LogEntry}
    (hL : args.Payload a L) {r : AppendEntriesReply × Server}
    (hr : s.handleAppendEntries args = some r) :
    ∃ a', Confined i a a' ∧ Sim conf past files net (Function.update servers i r.2) a' ∧
      (r.1.success = true → L.length ≤ a'.acked i args.term) := by
  obtain ⟨b, hgb, hb⟩ := h.recognizeLeader hi args
  cases Server.handleAppendEntries_way hr with
  | old => exact ⟨a, Confined.refl i a, h, fun hs => absurd hs (by simp)⟩
  | mismatch => exact ⟨b, hgb, hb, fun hs => absurd hs (by simp)⟩
  | stored hlt hprev s' hs' =>
    have htermb : b.term i = args.term :=
      (hb.refines hi).term.symm.trans (Server.recognizeLeader_term hlt)
    obtain ⟨d, hgd, hd, hin, hacked, -⟩ := hb.storeEntries hi rfl (hL.mono hgb.grows h.safetyInv)
      htermb.symm hprev hs'
    have htermd : d.term i = args.term := by
      rw [← (hd.refines hi).term, Server.storeEntries_metadata hs']
      exact Server.recognizeLeader_term hlt
    have hgrows := hgb.trans hgd
    obtain ⟨e, hge, he⟩ := hd.followCommit hi (hL.mono hgrows.grows h.safetyInv) htermd.symm hin
    refine ⟨e, hgrows.trans hge, he, fun _ => ?_⟩
    rw [htermd] at hacked
    exact hacked.trans (hge.grows.acked _ _)

/-- `handleRequestVoteReply`, when the votes that it counts are there. -/
theorem Sim.handleRequestVoteReply (h : Sim conf past files net (Function.update servers i s) a)
    (hi : i ∈ conf.members) {t : ℕ} {reply : RequestVoteReply}
    (hwin : s.role = .candidate → s.metadata.currentTerm = t → reply.voteGranted = true →
      s.majority ≤ (s.votesReceived + 1) % 2 ^ 64 →
        ∃ V, conf.Majority V ∧ ∀ v ∈ V, a.voted v (a.term i) = some i)
    (hlen : (a.log i).length + 1 < 2 ^ 64) :
    Simulated conf past files net servers i a (s.handleRequestVoteReply t reply) := by
  have href := h.refines hi
  have hst := h.standing hi
  have hcount : Sim conf past files net (Function.update servers i s.countVote) a :=
    h.unseen hi { href with } { hst with } rfl
  generalize hs' : s.handleRequestVoteReply t reply = s'
  cases Server.handleRequestVoteReply_way hs' with
  | stepsDown hlt => exact h.adoptTerm hi hlt 0
  | ignored => exact h.simulated
  | won hterm hrole hsame hgranted hmaj =>
    obtain ⟨V, hV, hvotes⟩ := hwin hrole hsame hgranted hmaj
    exact hcount.becomeLeader hi hrole hV hvotes hlen
  | counted => exact hcount.simulated

/-- `creditPeer`, for what the peer has acknowledged. -/
theorem Sim.creditPeer (h : Sim conf past files net (Function.update servers i s) a)
    (hi : i ∈ conf.members) (hrole : s.role = .leader) {peer : ℕ} {args : AppendEntriesArgs}
    (hacked : args.prevLogIndex + args.entries.length ≤ a.acked peer (a.term i)) :
    Simulated conf past files net servers i a (s.creditPeer peer args) := by
  have href := h.refines hi
  have hst := h.standing hi
  have hnew : (args.prevLogIndex + args.entries.length) % 2 ^ 64 ≤ a.acked peer (a.term i) :=
    (Nat.mod_le _ _).trans hacked
  have hmatched : ∀ p ∈ s.peers, s.creditedMatch peer args p ≤ a.acked p (a.term i) := by
    intro p hp
    by_cases hpp : p = peer
    · subst hpp
      rw [Server.creditedMatch_self]
      exact max_le (hst.matched hrole p hp) hnew
    · rw [Server.creditedMatch_of_ne _ hpp]
      exact hst.matched hrole p hp
  have hnext : ∀ p ∈ s.peers,
      Function.update s.nextIndex peer ((s.creditedMatch peer args peer + 1) % 2 ^ 64) p ≤
        (a.log i).length + 1 := by
    intro p hp
    by_cases hpp : p = peer
    · subst hpp
      rw [Function.update_self]
      have h1 := hmatched p hp
      have h2 := h.logInv.acked_le p (a.term i)
      rw [← h.logInv.leader_log i (hst.leads hrole)] at h2
      exact (Nat.mod_le _ _).trans (by omega)
    · rw [Function.update_of_ne hpp]
      exact hst.next hrole p hp
  rw [Server.creditPeer_eq]
  refine Sim.advanceCommit ?_ hi
  exact h.unseen hi { href with } (.of_leader hrole (hst.leads hrole) hmatched hnext) rfl

/-- `handleAppendEntriesReply`, of a reply that acknowledges what was sent. -/
theorem Sim.handleAppendEntriesReply
    (h : Sim conf past files net (Function.update servers i s) a) (hi : i ∈ conf.members)
    {peer : ℕ} {args : AppendEntriesArgs} {reply : AppendEntriesReply}
    (hacked : reply.success = true →
      args.prevLogIndex + args.entries.length ≤ a.acked peer args.term) :
    Simulated conf past files net servers i a (s.handleAppendEntriesReply peer args reply) := by
  have href := h.refines hi
  have hst := h.standing hi
  have hup : Sim conf past files net (Function.update servers i (s.reached peer)) a :=
    h.unseen hi { href with } { hst with } rfl
  generalize hs' : s.handleAppendEntriesReply peer args reply = s'
  cases Server.handleAppendEntriesReply_way hs' with
  | stepsDown hlt => exact hup.adoptTerm hi hlt 0
  | ignored => exact hup.simulated
  | credited hterm hrole hsame hsuccess =>
    refine hup.creditPeer hi hrole ?_
    rw [← href.term, hsame]
    exact hacked hsuccess
  | backed hterm hrole =>
    have hnext : ∀ p ∈ s.peers, Function.update s.nextIndex peer (s.nextIndex peer - 1) p ≤
        (a.log i).length + 1 := by
      intro p hp
      by_cases hpp : p = peer
      · subst hpp
        rw [Function.update_self]
        exact (Nat.sub_le _ _).trans (hst.next hrole p hp)
      · rw [Function.update_of_ne hpp]
        exact hst.next hrole p hp
    refine Sim.simulated ?_
    exact hup.unseen hi { href with }
      (.of_leader hrole (hst.leads hrole) (hst.matched hrole) hnext) rfl

/-- `electionTimeout`. -/
theorem Sim.electionTimeout (h : Sim conf past files net (Function.update servers i s) a)
    (hi : i ∈ conf.members) (hwrap : s.metadata.currentTerm + 1 < 2 ^ 64)
    (hnet : ∀ b v args, .requestVote i b v args ∈ net → args.term ≤ a.term i)
    (hlen : s.logEntries.length + 1 < 2 ^ 64) {r : Bool × Server}
    (hr : s.electionTimeout = some r) :
    Simulated conf past files net servers i a r.2 := by
  have hcand := h.becomeCandidate hi hwrap hnet
  cases Server.electionTimeout_way hr with
  | alone hrole hmaj =>
    refine hcand.trans fun {b} hb => ?_
    have href := hb.refines hi
    have hvote : b.voted i (b.term i) = some i := by
      have hid : s.nodeId = i := (h.refines hi).nodeId
      rw [href.vote]
      show (if s.nodeId = 0 then none else some s.nodeId) = some i
      rw [hid, if_neg (conf.ne_zero i hi)]
    -- alone, the node is a majority
    have hone : conf.Majority {i} := by
      refine ⟨Finset.singleton_subset_iff.mpr hi, ?_⟩
      rw [Server.majority, href.peers, conf.length_peers hi] at hmaj
      rw [Finset.card_singleton]
      exact hmaj
    refine hb.becomeLeader hi rfl hone (fun v hv => ?_) (href.log ▸ hlen)
    rw [Finset.mem_singleton.mp hv]
    exact hvote
  | campaigns => exact hcand

/-- `propose`. -/
theorem Sim.propose (h : Sim conf past files net (Function.update servers i s) a)
    (hi : i ∈ conf.members) (hlen : s.logEntries.length + 1 < 2 ^ 64) {request : Request}
    {r : Waiter × Server} (hr : s.propose request = some r) :
    Simulated conf past files net servers i a r.2 := by
  obtain ⟨hrole, hw, hs'⟩ := Server.propose_eq hr
  have happ := h.appendEntry hi hrole
    (e := (⟨request, s.nextLogIndex, s.metadata.currentTerm⟩ : Waiter).entry) rfl rfl
    ((h.refines hi).log ▸ hlen)
  rw [hs', hw]
  exact happ.trans fun hb => hb.advanceCommit hi

end Handlers

/-! ## What is sent, and what is written -/

section Ends

variable {conf : Config} {past past' : ℕ → List Effect} {files files' : ℕ → Files}
  {net net' sent : List Packet} {servers : ℕ → Server} {a : Abstract} {i : ℕ} {s : Server}

/-- Messages can go missing. -/
theorem Sim.subset (h : Sim conf past files net servers a) (hnet : net' ⊆ net) :
    Sim conf past files net' servers a :=
  { h with
    accounted := fun j hj =>
      { h.accounted j hj with
        standing :=
          { (h.accounted j hj).standing with
            requests := fun hr b v args hp =>
              (h.accounted j hj).standing.requests hr b v args (hnet hp) } }
    packets := fun p hp => h.packets p (hnet hp) }

/-- What a leader sends is the rest of its log. -/
theorem Sim.payload (h : Sim conf past files net servers a) (hi : i ∈ conf.members) {peer : ℕ}
    {args : AppendEntriesArgs} (hpeer : peer ∈ (servers i).peers)
    (hargs : (servers i).appendEntriesArgs peer = some args) : args.Payload a (a.log i) := by
  have href := (h.accounted i hi).refines
  have hst := (h.accounted i hi).standing
  unfold Server.appendEntriesArgs at hargs
  split at hargs
  · exact absurd hargs (by simp)
  next hrole =>
  have hrole' : (servers i).role = .leader := not_not.mp hrole
  have hlog : a.log i = a.leaderLog (a.term i) := h.logInv.leader_log i (hst.leads hrole')
  have hnext := hst.next hrole' peer hpeer
  have hle : max 1 ((servers i).nextIndex peer) - 1 ≤ (a.log i).length := by
    rcases le_total 1 ((servers i).nextIndex peer) with hle | hle
    · rw [max_eq_right hle]
      omega
    · rw [max_eq_left hle]
      exact Nat.zero_le _
  rw [← Option.some.inj hargs, href.log]
  refine ⟨?_, hle, fun hne => ?_, rfl, ?_⟩
  · show a.log i <+: a.leaderLog (servers i).metadata.currentTerm
    rw [href.term, hlog]
  · dsimp only at hne ⊢
    obtain ⟨e, he⟩ : ∃ e, (a.log i)[max 1 ((servers i).nextIndex peer) - 1 - 1]? = some e :=
      ⟨_, List.getElem?_eq_getElem (by omega)⟩
    rw [Server.termAt, if_neg hne, href.log, he]
    rfl
  · dsimp only
    rw [href.commit, href.term]
    rcases h.safetyInv.commit_le i with h0 | ⟨t, m, hc, ht, hm, heq⟩
    · exact Or.inl h0
    · exact Or.inr ⟨t, m, hc, ht, hm, heq⟩

/-- **A section sends.** -/
theorem Sim.send (h : Sim conf past files net (Function.update servers i s) a)
    (htrue : ∀ p ∈ sent, p.Truthful a)
    (hreq : ∀ j b v args, .requestVote j b v args ∈ sent → j = i ∧
      args.lastLogIndex = (a.log i).length ∧ args.lastLogTerm = lastTerm (a.log i)) :
    Sim conf past files (net ++ sent) (Function.update servers i s) a :=
  { h with
    accounted := fun j hj =>
      { h.accounted j hj with
        standing :=
          { (h.accounted j hj).standing with
            requests := by
              intro hr b v args hp ht
              rcases List.mem_append.mp hp with hp | hp
              · exact (h.accounted j hj).standing.requests hr b v args hp ht
              · obtain ⟨rfl, hlast⟩ := hreq j b v args hp
                exact hlast } }
    packets := by
      intro p hp
      rcases List.mem_append.mp hp with hp | hp
      · exact h.packets p hp
      · exact htrue p hp }

/-- **A section is over**: what it has collected becomes part of the trace, and is written. -/
theorem Sim.flush (h : Sim conf past files net (Function.update servers i s) a)
    (hpast : past' i = past i ++ s.effects) (hpast' : ∀ j, j ≠ i → past' j = past j)
    (hfiles : files' i = perform s.effects (files i)) (hfiles' : ∀ j, j ≠ i → files' j = files j) :
    Sim conf past' files' net (Function.update servers i { s with effects := [] }) a := by
  refine { h with accounted := fun j hj => ?_, marked := fun {t n} hn => ?_ }
  · by_cases hji : j = i
    · subst hji
      have hself := h.accounted_self hj
      rw [Function.update_self]
      refine ⟨{ hself.refines with }, { hself.standing with }, ?_, ?_⟩
      · intro e he
        rw [List.append_nil, hpast] at he
        exact hself.explained e he
      · rw [hfiles]
        exact hself.disk
    · have hother := h.accounted j hj
      rw [Function.update_of_ne hji] at hother ⊢
      rwa [hpast' j hji, hfiles' j hji]
  · obtain ⟨j, hj, log, hlog⟩ := h.marked hn
    refine ⟨j, hj, log, ?_⟩
    by_cases hji : j = i
    · subst hji
      rw [Function.update_self] at hlog ⊢
      rwa [List.append_nil, hpast]
    · rw [Function.update_of_ne hji] at hlog ⊢
      rwa [hpast' j hji]

end Ends

/-- The fields of a message fit into their bytes. -/
def Packet.Encodes : Packet → Prop
  | appendEntries _ _ _ args => args.Bounded ∧ ∀ e ∈ args.entries, e.WellFormed
  | _ => True

namespace Cluster

variable {conf : Config} {c c' : Cluster} {tr evs : List (ℕ × Node.Event)} {a : Abstract}

/-- What is assumed of a step: terms, indices and the 32-bit lengths of messages do not wrap
around, requests of clients fit, and crashes fall between sections and leave completed writes
intact. -/
def Admissible (c : Cluster) : Action → Prop
  | .run i g =>
    (g = .thread .electionTimeout → c.term i + 1 < 2 ^ 64) ∧
      (c.hosts i).server.logEntries.length + 1 < 2 ^ 64 ∧
      (∀ request, g = .thread (.propose request) → request.command.Fits) ∧
      ∀ caller b callee args, g = .packet (.appendEntries caller b callee args) →
        (serializeAppendEntriesArgs args).length < 2 ^ 32
  | .crash i retries => Node.IntactStarts (c.hosts i).server.nodeId (c.hosts i).server.peers
      retries (c.hosts i).files
  | .crashIn .. => False
  | .lose _ => True

theorem Admissible.intact {x : Action} (h : c.Admissible x) : c.Intact x := by
  rcases x with ⟨i, g⟩ | ⟨i, retries⟩ | ⟨i, g, p, retries⟩ | p
  · exact h.1
  · exact h
  · exact absurd h id
  · trivial

/-- **The invariant of runs**: the cluster refines a state of the protocol, its files mirror its
logs, its messages fit, and its elections are in order. -/
structure Refined (conf : Config) (tr : List (ℕ × Node.Event)) (c : Cluster) (a : Abstract) :
    Prop where
  sim : Sim conf (fun j => effects j tr) (fun j => (c.hosts j).files) c.network
    (fun j => (c.hosts j).server) a
  mirrored : ∀ i ∈ conf.members, (c.hosts i).Mirrored LogEntry.WellFormed
  encodes : ∀ p ∈ c.network, p.Encodes
  elections : ElectionInv conf tr c

section Refined

variable (h : Refined conf tr c a)

include h

theorem Refined.refines {i : ℕ} (hi : i ∈ conf.members) :
    (c.hosts i).server.Refines conf a i := (h.sim.accounted i hi).refines

theorem Refined.standing {i : ℕ} (hi : i ∈ conf.members) :
    (c.hosts i).server.Standing a c.network i := (h.sim.accounted i hi).standing

/-- What is in the trace has happened in the protocol. -/
theorem Refined.explained {i : ℕ} (hi : i ∈ conf.members) {e : Effect} (he : e ∈ effects i tr) :
    e.Explained a i := (h.sim.accounted i hi).explained e (List.mem_append_left _ he)

theorem Refined.voted {v t i : ℕ} (hv : v ∈ conf.members) (hvoted : Voted tr v t i) :
    a.voted v t = some i := by
  rcases hvoted with hmem | ⟨rfl, hmem⟩
  · exact h.explained hv hmem
  · exact h.explained hv hmem

/-- The votes that make a candidate the leader. -/
theorem Refined.exists_votes {i : ℕ} (hi : i ∈ conf.members) {g : Trigger}
    {reply : RequestVoteReply} {net : List Packet}
    (hfetch : c.fetch i g = some (.requestVoteReply (c.term i) reply, net))
    (hgranted : reply.voteGranted = true) (hrole : (c.hosts i).server.role = .candidate)
    (hmaj : (c.hosts i).server.majority ≤ ((c.hosts i).server.votesReceived + 1) % 2 ^ 64) :
    ∃ V, conf.Majority V ∧ ∀ v ∈ V, a.voted v (a.term i) = some i := by
  obtain ⟨S, v, hS, hv, hvS, hvoted, -, -⟩ :=
    h.elections.new_vote hi hfetch hgranted hrole
  obtain ⟨hsub, hcard⟩ := hS.insert_card hv hvS
  rw [h.elections.majority_eq hi] at hmaj
  refine ⟨insert v S, ⟨hsub, by omega⟩, fun w hw => ?_⟩
  rw [← (h.refines hi).term]
  rcases Finset.mem_insert.mp hw with rfl | hw
  · exact h.voted hv hvoted
  · exact h.voted (hS.subset hw) (hS.voted w hw)

/-- A message that is delivered decodes to what was sent. -/
theorem Refined.decodes {i caller b callee : ℕ} {args : AppendEntriesArgs}
    (hp : .appendEntries caller b callee args ∈ c.network)
    (hadm : c.Admissible (.run i (.packet (.appendEntries caller b callee args)))) :
    receiveAppendEntries args = some args := by
  obtain ⟨hb, hwf⟩ := h.encodes _ hp
  exact receiveAppendEntries_of_wellFormed hb (hadm.2.2.2 caller b callee args rfl) hwf

/-- What a leader sends fits. -/
theorem Refined.encodes_sent {i peer : ℕ} (hi : i ∈ conf.members) {args : AppendEntriesArgs}
    (hpeer : peer ∈ (c.hosts i).server.peers)
    (hargs : (c.hosts i).server.appendEntriesArgs peer = some args)
    (hlen : (c.hosts i).server.logEntries.length + 1 < 2 ^ 64) :
    args.Bounded ∧ ∀ e ∈ args.entries, e.WellFormed := by
  have hwf := (h.mirrored i hi).logged.entries
  have hprev := (h.sim.payload hi hpeer hargs).prev_le
  have hcommit := h.sim.commit_le_log i
  rw [← (h.refines hi).log] at hprev hcommit
  rw [← (h.refines hi).commit] at hcommit
  unfold Server.appendEntriesArgs at hargs
  split at hargs
  · exact absurd hargs (by simp)
  rw [← Option.some.inj hargs] at hprev ⊢
  refine ⟨⟨h.elections.term_lt hi, ?_, ?_, ?_, ?_⟩, fun e he => hwf e (List.mem_of_mem_drop he)⟩
  · show (c.hosts i).server.nodeId < 2 ^ 64
    rw [(h.refines hi).nodeId]
    exact conf.lt i hi
  · exact lt_of_le_of_lt hprev (by omega)
  · dsimp only
    rw [Server.termAt]
    split
    · exact Nat.two_pow_pos 64
    · rcases hget : (c.hosts i).server.logEntries[
          max 1 ((c.hosts i).server.nextIndex peer) - 1 - 1]? with _ | e
      · exact Nat.two_pow_pos 64
      · exact (hwf e (List.mem_of_getElem? hget)).term_lt
  · exact lt_of_le_of_lt hcommit (by omega)

/-- An AppendEntries that is delivered carries what the leader of its term has had. -/
theorem Refined.payload {i : ℕ} {g : Trigger} {args : AppendEntriesArgs} {net : List Packet}
    (hadm : c.Admissible (.run i g)) (hfetch : c.fetch i g = some (.appendEntries args, net)) :
    ∃ L, args.Payload a L := by
  rcases fetch_eq_some hfetch with ⟨-, hloc, -⟩ | ⟨p, rfl, hp, hx, -⟩
  · exact absurd hloc (by simp [Input.isLocal])
  cases hx with
  | appendEntries caller b args' _ hargs =>
    rw [h.decodes hp hadm] at hargs
    rw [← Option.some.inj hargs]
    exact h.sim.packets _ hp

/-- A reply to an AppendEntries that is delivered is true. -/
theorem Refined.acked {i peer : ℕ} {g : Trigger} {args : AppendEntriesArgs}
    {reply : AppendEntriesReply} {net : List Packet}
    (hfetch : c.fetch i g = some (.appendEntriesReply peer args reply, net))
    (hsuccess : reply.success = true) :
    args.prevLogIndex + args.entries.length ≤ a.acked peer args.term := by
  rcases fetch_eq_some hfetch with ⟨-, hloc, -⟩ | ⟨p, rfl, hp, hx, -⟩
  · exact absurd hloc (by simp [Input.isLocal])
  cases hx with
  | appendEntriesReply => exact h.sim.packets _ hp hsuccess

/-- A RequestVote that is delivered comes from another member, and its candidate has told the truth
about its log. -/
theorem Refined.request {i : ℕ} {g : Trigger} {args : RequestVoteArgs} {net : List Packet}
    (hfetch : c.fetch i g = some (.requestVote args, net)) :
    args.candidateId ≠ 0 ∧ args.candidateId ≠ i ∧ args.term ≤ a.term args.candidateId ∧
      ((c.hosts args.candidateId).server.role = .candidate →
        args.term = a.term args.candidateId →
          args.lastLogIndex = (a.log args.candidateId).length ∧
            args.lastLogTerm = lastTerm (a.log args.candidateId)) := by
  rcases fetch_eq_some hfetch with ⟨-, hloc, -⟩ | ⟨p, rfl, hp, hx, -⟩
  · exact absurd hloc (by simp [Input.isLocal])
  cases hx with
  | requestVote caller b =>
    obtain ⟨hj, hmem, hid, ht⟩ := h.elections.packets _ hp
    subst hid
    refine ⟨conf.ne_zero _ hj, fun heq => ((conf.mem_peers _ hj _).mp hmem).2 heq.symm, ?_,
      fun hrole hterm => (h.standing hj).requests hrole b i args hp hterm⟩
    rw [← (h.refines hj).term]
    exact ht

/-- **Every section is a few steps of the protocol**, and what it accepts, it acknowledges. -/
theorem Refined.handle {i : ℕ} (hi : i ∈ conf.members) {g : Trigger} {x : Input}
    {net : List Packet} (hadm : c.Admissible (.run i g)) (hfetch : c.fetch i g = some (x, net))
    {m : Node} {os : List Output} (hm : (c.hosts i).handle x = some (m, os)) :
    ∃ a', Confined i a a' ∧
      Sim conf (fun j => effects j tr) (fun j => (c.hosts j).files) net
        (Function.update (fun j => (c.hosts j).server) i m.server) a' ∧
      ∀ args r, x = .appendEntries args → (c.hosts i).server.handleAppendEntries args = some r →
        r.1.success = true → args.prevLogIndex + args.entries.length ≤ a'.acked i args.term := by
  have hsim : Sim conf (fun j => effects j tr) (fun j => (c.hosts j).files) net
      (Function.update (fun j => (c.hosts j).server) i (c.hosts i).server) a := by
    rw [Function.update_eq_self]
    exact h.sim.subset (fetch_subset hfetch)
  have hlen := hadm.2.1
  have hlen' : (a.log i).length + 1 < 2 ^ 64 := (h.refines hi).log ▸ hlen
  -- the sections that are not run by an AppendEntries
  have hother : (∀ args, x ≠ .appendEntries args) →
      Simulated conf (fun j => effects j tr) (fun j => (c.hosts j).files) net
        (fun j => (c.hosts j).server) i a m.server → ∃ a', Confined i a a' ∧
      Sim conf (fun j => effects j tr) (fun j => (c.hosts j).files) net
        (Function.update (fun j => (c.hosts j).server) i m.server) a' ∧
      ∀ args r, x = .appendEntries args → (c.hosts i).server.handleAppendEntries args = some r →
        r.1.success = true →
          args.prevLogIndex + args.entries.length ≤ a'.acked i args.term := by
    rintro hx ⟨a', hg, ha'⟩
    exact ⟨a', hg, ha', fun args _ heq => absurd heq (hx args)⟩
  cases Node.handle_section hm with
  | requestVote args =>
    obtain ⟨hzero, hne, hle, hreq⟩ := h.request hfetch
    exact hother (by simp) (hsim.handleRequestVote hi hzero hne hle hreq)
  | appendEntries args r hr =>
    obtain ⟨L, hL⟩ := h.payload hadm hfetch
    obtain ⟨a', hg, ha', hacked⟩ := hsim.handleAppendEntries hi hL hr
    refine ⟨a', hg, ha', fun args' r' hargs hr' hsuccess => ?_⟩
    obtain rfl := Input.appendEntries.inj hargs
    obtain rfl := Option.some.inj (hr.symm.trans hr')
    have hlenL : args.prevLogIndex + args.entries.length = L.length := by
      rw [hL.entries, List.length_drop]
      have := hL.prev_le
      omega
    rw [hlenL]
    exact hacked hsuccess
  | requestVoteReply t reply =>
    refine hother (by simp)
      (hsim.handleRequestVoteReply hi (fun hrole hterm hgranted hmaj => ?_) hlen')
    subst hterm
    exact h.exists_votes hi hfetch hgranted hrole hmaj
  | appendEntriesReply peer args reply =>
    exact hother (by simp) (hsim.handleAppendEntriesReply hi (h.acked hfetch))
  | contactFailed peer =>
    have hdown : Sim conf (fun j => effects j tr) (fun j => (c.hosts j).files) net
        (Function.update (fun j => (c.hosts j).server) i ((c.hosts i).server.contactFailed peer)) a :=
      hsim.unseen hi { h.refines hi with } { hsim.standing hi with } rfl
    exact hother (by simp) hdown.simulated
  | electionTimeout r hr =>
    have hthread : g = .thread .electionTimeout := fetch_of_isLocal hfetch rfl
    refine hother (by simp)
      (hsim.electionTimeout hi (hadm.1 hthread) (fun b v args hp => ?_) hlen hr)
    rw [← (h.refines hi).term]
    exact (h.elections.packets _ (fetch_subset hfetch hp)).2.2.2
  | proposed request w s hp => exact hother (by simp) (hsim.propose hi hlen hp)
  | atOnce request w s hp => exact hother (by simp) (hsim.propose hi hlen hp)
  | sendRequestVotes | replicate | refused | wake => exact hother (by simp) hsim.simulated

end Refined

/-! ## Steps -/

/-- The messages of a section are true. -/
theorem Sends.truthful {i : ℕ} {n : Node} {g : Trigger} {x : Input} {sent : List Packet}
    {past : ℕ → List Effect} {files : ℕ → Files} {net : List Packet} {servers : ℕ → Server}
    (h : Sends i n g x sent) (hsim : Sim conf past files net servers a) (hi : i ∈ conf.members)
    (hserver : (∃ peer, x = .replicate peer) → servers i = n.server)
    (hdecode : ∀ caller b callee args args', g = .packet (.appendEntries caller b callee args) →
      x = .appendEntries args' → args' = args)
    (hacked : ∀ args r, x = .appendEntries args → n.server.handleAppendEntries args = some r →
      r.1.success = true → args.prevLogIndex + args.entries.length ≤ a.acked i args.term) :
    ∀ p ∈ sent, p.Truthful a := by
  intro p hp
  cases h with
  | none => exact absurd hp (by simp)
  | voteReply caller b callee args hg hx =>
    rw [List.mem_singleton.mp hp]
    trivial
  | appendReply caller b callee args args' r hg hx hr =>
    rw [List.mem_singleton.mp hp]
    obtain rfl := hdecode caller b callee args args' hg hx
    exact hacked args' r hx hr
  | votes hg hx hcamp =>
    obtain ⟨k, -, rfl⟩ := List.mem_map.mp hp
    trivial
  | append peer args hx hpeer hargs =>
    rw [List.mem_singleton.mp hp]
    rw [← hserver ⟨peer, hx⟩] at hpeer hargs
    exact ⟨a.log i, hsim.payload hi hpeer hargs⟩

/-- Requests for votes describe the log of the node. -/
theorem Sends.requests {i : ℕ} {n : Node} {g : Trigger} {x : Input} {sent : List Packet}
    (h : Sends i n g x sent) {log : List LogEntry} (hlog : n.server.logEntries = log)
    (hindexed : Indexed log) {j b v : ℕ} {args : RequestVoteArgs}
    (hp : .requestVote j b v args ∈ sent) : j = i ∧ x = .sendRequestVotes ∧
      args.lastLogIndex = log.length ∧ args.lastLogTerm = lastTerm log := by
  subst hlog
  cases h with
  | none => exact absurd hp (by simp)
  | voteReply => exact absurd hp (by simp)
  | appendReply => exact absurd hp (by simp)
  | votes hg hx hcamp =>
    obtain ⟨k, -, heq⟩ := List.mem_map.mp hp
    obtain ⟨rfl, -, -, rfl⟩ := Packet.requestVote.inj heq
    exact ⟨rfl, hx, hindexed.getLastLogIndex, rfl⟩
  | append => exact absurd hp (by simp)

/-- The servers after one node has changed. -/
theorem servers_update (hosts : ℕ → Node) (i : ℕ) (n : Node) :
    (fun j => (Function.update hosts i n j).server) =
      Function.update (fun j => (hosts j).server) i n.server := by
  ext1 j
  by_cases hj : j = i
  · subst hj
    rw [Function.update_self, Function.update_self]
  · rw [Function.update_of_ne hj, Function.update_of_ne hj]

/-- What a member receives can be stored. -/
theorem Refined.storable (h : Refined conf tr c a) {i : ℕ} {g : Trigger} {x : Input}
    {net : List Packet} (hadm : c.Admissible (.run i g)) (hfetch : c.fetch i g = some (x, net)) :
    x.Storable LogEntry.WellFormed (c.hosts i).server := by
  have hb := h.elections.bounded hfetch hadm.1
  refine Input.Fits.storable ?_ ?_
  · rcases x with _ | _ | _ | _ | _ | _ | _ | _ | request | _
    case propose =>
      intro _
      exact hadm.2.2.1 request (fetch_of_isLocal hfetch rfl)
    all_goals trivial
  · rcases x with _ | args | _ | _ | _ | _ | _ | _ | _ | _
    case requestVote => exact hb.1
    case requestVoteReply => exact hb
    case appendEntriesReply => exact hb
    case appendEntries =>
      rcases fetch_eq_some hfetch with ⟨-, hloc, -⟩ | ⟨p, -, -, hx, -⟩
      · exact absurd hloc (by simp [Input.isLocal])
      · cases hx with
        | appendEntries caller b args' _ hargs => exact ⟨_, hargs⟩
    all_goals trivial

/-- **A section of a refined cluster.** -/
theorem Refined.run (h : Refined conf tr c a) {i : ℕ} {g : Trigger} {x : Input}
    {net : List Packet} {m : Node} {os : List Output} (hi : i ∈ conf.members)
    (hadm : c.Admissible (.run i g)) (hfetch : c.fetch i g = some (x, net))
    (hm : (c.hosts i).handle x = some (m, os)) :
    ∃ a', Confined i a a' ∧
      Sim conf (fun j => effects j (tr ++ tag i (m.server.effects.map .effect ++ os.map .output)))
        (fun j => (Function.update c.hosts i m.flush j).files)
        (net ++ os.flatMap (Output.packets i (c.hosts i).boot (c.hosts i).server.peers g))
        (fun j => (Function.update c.hosts i m.flush j).server) a' := by
  obtain ⟨a', hg, hsim, hacked⟩ := h.handle hi hadm hfetch hm
  have hsends := handle_sends hfetch hm
  have hindexed := h.sim.indexed_log (h.sim.logInv.log_matched i)
  -- a section that sends requests changes no memory
  have hsame : x = .sendRequestVotes ∨ (∃ peer, x = .replicate peer) →
      m.server = (c.hosts i).server := by
    rintro (rfl | ⟨peer, rfl⟩) <;> cases Node.handle_section hm <;> rfl
  refine ⟨a', hg, ?_⟩
  rw [servers_update]
  refine (hsim.send ?_ ?_).flush ?_ (fun j hj => ?_) ?_ fun j hj => ?_
  · refine hsends.truthful hsim hi (fun hx => ?_) (fun caller b callee args args' hgp hx => ?_) hacked
    · rw [Function.update_self]
      exact hsame (Or.inr hx)
    · subst hgp hx
      rcases fetch_eq_some hfetch with ⟨heq, -, -⟩ | ⟨p, heq, hp, hx, -⟩
      · exact absurd heq (by simp)
      · rw [← Trigger.packet.inj heq] at hx hp
        cases hx with
        | appendEntries _ _ _ _ hargs =>
          rw [h.decodes hp hadm] at hargs
          exact (Option.some.inj hargs).symm
  · intro j b v args hp
    obtain ⟨hj, hx, hlast⟩ := hsends.requests (h.refines hi).log hindexed hp
    have hlog : a'.log i = a.log i := by
      rw [← (hsim.refines hi).log, hsame (Or.inl hx), (h.refines hi).log]
    rw [hlog]
    exact ⟨hj, hlast⟩
  · rw [effects_append, effects_tag_self, Node.effects_section]
  · rw [effects_append, effects_tag_of_ne (Ne.symm hj), List.append_nil]
  · rw [Function.update_self, Node.flush, (Node.handle_frame hm).1]
  · rw [Function.update_of_ne hj]

/-- An entry up to the commit index has been committed. -/
theorem Refined.committed (h : Refined conf tr c a) {i index : ℕ} {e : LogEntry}
    (hpos : 0 < index) (hle : index ≤ a.commit i) (he : (a.log i)[index - 1]? = some e) :
    ∃ t n, (t, n) ∈ a.commits ∧ index ≤ n ∧ (a.leaderLog t)[index - 1]? = some e := by
  rcases h.sim.safetyInv.commit_le i with h0 | ⟨t, m, hc, -, hm, heq⟩
  · omega
  · refine ⟨t, m, hc, hle.trans hm, ?_⟩
    rw [← getElem?_eq_of_take_eq heq (by omega), he]

theorem Refined.applied (h : Refined conf tr c a) {i index : ℕ} {e : LogEntry} (hpos : 0 < index)
    (hle : index ≤ a.commit i) (he : (a.log i)[index - 1]? = some e) :
    (Effect.applied index e.command).Explained a i := by
  obtain ⟨t, n, hc, hn, hlead⟩ := h.committed hpos hle he
  exact ⟨t, n, e, hc, hpos, hn, hlead, rfl⟩

/-- A node may forget how far it knows its log to be committed. -/
theorem Refined.reachable_learn (h : Refined conf tr c a) {i k : ℕ} (hle : k ≤ a.commit i) :
    Reachable conf.Majority (a.learn i k) := by
  rcases h.sim.safetyInv.commit_le i with h0 | ⟨t, m, hc, ht, hm, heq⟩
  · have hsame : a.learn i k = a := by
      rw [Protocol.State.learn, show k = a.commit i by omega, Function.update_eq_self]
    rw [hsame]
    exact h.sim.reachable
  · exact .step h.sim.reachable (.learn a i t m k hc ht (hle.trans hm) (take_eq_of_take_eq heq hle))

/-- **A restart of a refined cluster.**  The commit index goes back to the one on disk. -/
theorem Refined.restart (h : Refined conf tr c a) {i : ℕ} {retries : List CrashPoint}
    (hi : i ∈ conf.members) (hadm : c.Admissible (.crash i retries)) {n : Node} {es : List Effect}
    (hn : (c.hosts i).restart retries (c.hosts i).files = (n, es)) :
    ∃ a', Confined i a a' ∧
      Sim conf (fun j => effects j (tr ++ tag i (es.map .effect)))
        (fun j => (Function.update c.hosts i n j).files) c.network
        (fun j => (Function.update c.hosts i n j).server) a' := by
  have hself := h.sim.accounted i hi
  have href := hself.refines
  have hmir := h.mirrored i hi
  have hdisk : diskCommit (c.hosts i).files ≤ a.commit i := by
    have := hself.disk
    rwa [hmir.clean, perform_nil, href.commit] at this
  obtain ⟨hset, hballot, -⟩ := Node.restart_settled rfl rfl hadm
  obtain ⟨-, hlog⟩ := Node.restart_mirrored (n := c.hosts i) retries hmir.disk hmir.logged.entries
  obtain ⟨hcom, hwithin⟩ := restart_committed (m := c.hosts i) retries hmir.disk
    hmir.logged.entries hdisk
  have hrole := Node.restart_role (c.hosts i) retries (c.hosts i).files
  have hboot : ∀ e ∈ ((c.hosts i).restart retries (c.hosts i).files).2, e.IsBoot :=
    fun _ => Node.isBoot_restart
  rw [hn] at hset hballot hlog hcom hwithin hrole hboot
  dsimp only at hset hballot hlog hcom hwithin hrole hboot
  rw [(h.elections.settled i hi).disk] at hballot
  obtain ⟨hterm, hvoted⟩ := Prod.mk.inj hballot
  obtain ⟨k, hk⟩ : ∃ k, n.server.metadata.commitIndex = k := ⟨_, rfl⟩
  have hle : k ≤ a.commit i := hk ▸ hcom.le
  have hr := h.reachable_learn hle
  have hg := Confined.learn i a k
  have hcommit : (a.learn i k).commit i = k := by simp [Protocol.State.learn]
  refine ⟨a.learn i k, hg, hr, fun j hj => ?_, fun p hp =>
    (h.sim.packets p hp).mono hg.grows h.sim.safetyInv, h.sim.indexed, h.sim.short,
    h.sim.candidates, fun {t m} hc => ?_⟩
  · by_cases hji : j = i
    · subst hji
      rw [Function.update_self, effects_append, effects_tag_self, Node.effects_map_effect]
      refine ⟨?_, .of_follower hrole, fun e he => ?_, ?_⟩
      · exact
          { nodeId := hset.tracked.nodeId.trans href.nodeId
            peers := hset.tracked.peers.trans href.peers
            term := hterm.trans href.term
            vote := by rw [hvoted]; exact href.vote
            log := hlog.trans href.log
            commit := hk.trans hcommit.symm
            lastApplied := by rw [hcom.lastApplied, hk, hcommit]
            stateMachine := by
              rw [hcom.stateMachine, hk, hcommit, href.log]
              rfl }
      · rw [hset.clean, List.append_nil, List.mem_append] at he
        rcases he with he | he
        · exact (hself.explained e (List.mem_append_left _ he)).mono hg.grows h.sim.safetyInv
        · refine Effect.Explained.mono ?_ hg.grows h.sim.safetyInv
          have hb := hboot e he
          have hw := hwithin e he
          rcases e with _ | _ | _ | _ | _ | _ | _ | _ | _ | _ | _ | ⟨index, command⟩
          case applied =>
            obtain ⟨hpos, hindex, x, hx, rfl⟩ := hw
            rw [href.log] at hx
            exact h.applied hpos hindex hx
          all_goals trivial
      · rw [hset.clean, perform_nil]
        exact hcom.disk
    · rw [Function.update_of_ne hji, effects_append, effects_tag_of_ne (Ne.symm hji),
        List.append_nil]
      exact (h.sim.accounted j hj).confined h.sim.safetyInv hg hji fun _ hv => Or.inl hv
  · obtain ⟨j, hj, log, hmark⟩ := h.sim.marked hc
    refine ⟨j, hj, log, ?_⟩
    rw [effects_append]
    by_cases hji : j = i
    · subst hji
      rw [hmir.clean, List.append_nil] at hmark
      exact List.mem_append_left _ (List.mem_append_left _ hmark)
    · rw [Function.update_of_ne hji, effects_tag_of_ne (Ne.symm hji), List.append_nil]
      exact hmark

/-- What a section sends fits. -/
theorem Refined.encodes_run (h : Refined conf tr c a) {i : ℕ} {g : Trigger} {x : Input}
    {sent : List Packet} (hi : i ∈ conf.members) (hadm : c.Admissible (.run i g))
    (hsends : Sends i (c.hosts i) g x sent) : ∀ p ∈ sent, p.Encodes := by
  intro p hp
  cases hsends with
  | none => exact absurd hp (by simp)
  | voteReply =>
    rw [List.mem_singleton.mp hp]
    trivial
  | appendReply =>
    rw [List.mem_singleton.mp hp]
    trivial
  | votes =>
    obtain ⟨k, -, rfl⟩ := List.mem_map.mp hp
    trivial
  | append peer args hx hpeer hargs =>
    rw [List.mem_singleton.mp hp]
    exact h.encodes_sent hi hpeer hargs hadm.2.1

/-- The files of all members mirror their logs after one member has moved. -/
theorem Refined.mirrored_update (h : Refined conf tr c a) (i : ℕ) {n : Node}
    (hn : n.Mirrored LogEntry.WellFormed) :
    ∀ j ∈ conf.members, (Function.update c.hosts i n j).Mirrored LogEntry.WellFormed :=
  forall_mem_update hn fun j hj _ => h.mirrored j hj

/-- **Every step of a refined cluster is a few steps of the protocol.** -/
theorem Refined.step (h : Refined conf tr c a) {x : Action} (hadm : c.Admissible x)
    (hs : step conf c x = some (c', evs)) :
    ∃ a', Grows a a' ∧ (∀ i g, x = .run i g → Confined i a a') ∧ Refined conf (tr ++ evs) c' a' := by
  have helect := h.elections.step hadm.intact hs
  cases step_moves hs with
  | run i g x net m os hi hfetch hm =>
    obtain ⟨a', hg, hsim⟩ := h.run hi hadm hfetch hm
    have hmir := (h.mirrored i hi).flush admits_noop (h.storable hadm hfetch) hm
    refine ⟨a', hg.grows, fun j g' heq => ?_, hsim, h.mirrored_update i hmir, fun p hp => ?_, helect⟩
    · obtain ⟨rfl, -⟩ := Action.run.inj heq
      exact hg
    · rcases List.mem_append.mp hp with hp | hp
      · exact h.encodes p (fetch_subset hfetch hp)
      · exact h.encodes_run hi hadm (handle_sends hfetch hm) p hp
  | crash i retries hi =>
    obtain ⟨a', hg, hsim⟩ := h.restart hi hadm rfl
    have hmir := (Node.restart_mirrored (n := c.hosts i) retries (h.mirrored i hi).disk
      (h.mirrored i hi).logged.entries).1
    exact ⟨a', hg.grows, by simp, hsim, h.mirrored_update i hmir, h.encodes, helect⟩
  | crashIn i g p retries x net m os hi hfetch hm => exact absurd hadm id
  | lose p hp =>
    refine ⟨a, Grows.refl a, by simp, ?_, h.mirrored, fun q hq => h.encodes q (List.erase_subset hq),
      helect⟩
    rw [List.append_nil]
    exact h.sim.subset List.erase_subset

/-- At the start nothing has happened. -/
theorem refined_initial (conf : Config) : Refined conf [] (initial conf) .initial := by
  have hmir : ∀ i, (Node.start i (conf.peers i) Files.none 0).Mirrored LogEntry.WellFormed ∧
      (Node.start i (conf.peers i) Files.none 0).server.logEntries = [] :=
    fun i => Node.start_mirrored i (conf.peers i) 0 rfl (by simp)
  refine ⟨⟨.initial, fun i hi => ?_, fun p hp => absurd hp (by simp [initial]), fun t => Indexed.nil,
    fun t => Nat.two_pow_pos 64, fun hv => absurd hv (by simp [Protocol.State.initial]),
    fun hc => absurd hc (by simp [Protocol.State.initial])⟩, fun i _ => (hmir i).1,
    fun p hp => absurd hp (by simp [initial]), ?_⟩
  · have hset := Node.start_settled i (conf.peers i) Files.none 0
    have hballot := Node.start_ballot i (conf.peers i) Files.none 0
    obtain ⟨hterm, hvoted⟩ := Prod.mk.inj (hballot.trans (show diskBallot Files.none = (0, 0) from rfl))
    have hcom : (Node.start i (conf.peers i) Files.none 0).Committed [] 0 :=
      start_committed 0 (show logBytes Files.none = serializeLog [] from rfl) (by simp)
        (Nat.zero_le _)
    have hzero : (Node.start i (conf.peers i) Files.none 0).server.metadata.commitIndex = 0 :=
      Nat.le_zero.mp hcom.le
    refine ⟨?_, .of_follower (Node.start_role _ _ _ _), fun e he => ?_, ?_⟩
    · exact
        { nodeId := hset.tracked.nodeId
          peers := hset.tracked.peers
          term := hterm
          vote := by
            show none = if (Node.start i (conf.peers i) Files.none 0).server.metadata.votedFor = 0
              then none else some _
            rw [hvoted]
            rfl
          log := (hmir i).2
          commit := hzero
          lastApplied := hcom.lastApplied.trans hzero
          stateMachine := by
            rw [initial, hcom.stateMachine, hzero]
            rfl }
    · exact absurd he (by simp [effects, initial, hset.clean])
    · rw [initial, hset.clean]
      exact hcom.disk
  · exact electionInv .start

/-- **The cluster refines the protocol**, over every run. -/
theorem refined (h : Run (machine conf) Admissible tr c) : ∃ a, Refined conf tr c a := by
  refine h.invariant (I := fun tr c => ∃ a, Refined conf tr c a) ⟨_, refined_initial conf⟩ ?_
  rintro tr c x c' evs - ⟨a, ha⟩ hadm hs
  obtain ⟨a', -, -, ha'⟩ := ha.step hadm hs
  exact ⟨a', ha'⟩

end Cluster

end RaftConsensus
