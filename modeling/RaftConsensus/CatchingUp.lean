import RaftConsensus.CommitRule
import RaftConsensus.FigureTwo
import RaftConsensus.LogShape
import RaftConsensus.Redirect
import RaftConsensus.Rounds
import Mathlib.Data.List.Flatten

/-!
# Catching up with a leader

A leader whose term nobody is beyond brings its peers to its log, if nobody crashes and no message
is lost.  It goes back entry by entry until a peer accepts; what the peer accepts is the whole rest
of the log, so one success is enough.  When all peers have the log, the leader commits it, and tells
them.

* `Leading.round`: one exchange of a leader and a peer.
* `Leading.sync`: exchanges until the peer has the leader's log.
* `Leading.settles`: a leader gets everybody to have, to commit and to apply one log.
-/

namespace RaftConsensus

/-! ## The two ends of an exchange -/

namespace Server

variable {s : Server} {p : ℕ} {args : AppendEntriesArgs} {reply : AppendEntriesReply}
  {r : AppendEntriesReply × Server}

/-- What a leader sends to a peer. -/
theorem exists_appendEntriesArgs (hrole : s.role = .leader)
    (hnext : s.nextIndex p ≤ s.logEntries.length + 1) :
    ∃ args, s.appendEntriesArgs p = some args ∧ args.term = s.metadata.currentTerm ∧
      args.leaderId = s.nodeId ∧ args.leaderCommit = s.metadata.commitIndex ∧
        args.prevLogIndex + args.entries.length = s.logEntries.length ∧
          args.entries.Sublist s.logEntries ∧
            (args.prevLogIndex ≠ 0 → 1 < s.nextIndex p) := by
  refine ⟨_, if_neg (by simp [hrole]), rfl, rfl, rfl, ?_, List.drop_sublist _ _,
    fun hne => ?_⟩
  · rw [List.length_drop]
    show max 1 (s.nextIndex p) - 1 + (s.logEntries.length - (max 1 (s.nextIndex p) - 1)) = _
    omega
  · dsimp only at hne
    omega

/-- A peer that does not know of a later term follows the sender. -/
theorem handleAppendEntries_follows (h : s.handleAppendEntries args = some r)
    (hterm : s.metadata.currentTerm ≤ args.term) :
    r.2.role = .follower ∧ r.2.currentLeaderId = args.leaderId := by
  have hrec : (s.recognizeLeader args).role = .follower ∧
      (s.recognizeLeader args).currentLeaderId = args.leaderId := by
    constructor <;> rw [recognizeLeader_eq] <;> split <;> rfl
  cases handleAppendEntries_way h with
  | old hold => exact absurd hterm (by omega)
  | mismatch => exact hrec
  | stored hnew hprev s' hs' =>
    obtain ⟨es, hc⟩ := s'.followCommit_commits args
    have hsteady := (storeEntries_steady hs').trans (.commits hc)
    exact ⟨hsteady.role.trans hrec.1, hsteady.leaderId.trans hrec.2⟩

/-- It refuses only what does not start at the first entry. -/
theorem prevLogIndex_ne_zero (h : s.handleAppendEntries args = some r)
    (hterm : s.metadata.currentTerm ≤ args.term) (hfail : r.1.success = false) :
    args.prevLogIndex ≠ 0 := by
  intro hzero
  cases handleAppendEntries_way h with
  | old hold => exact absurd hterm (by omega)
  | mismatch hnew hprev =>
    exact hprev (by rw [prevMatches, decide_eq_true hzero, Bool.true_or])
  | stored => exact absurd hfail (by simp)

/-- What it accepts and the leader has committed, it commits. -/
theorem le_commitIndex_of_success (h : s.handleAppendEntries args = some r)
    (hsuccess : r.1.success = true) (hlog : Indexed r.2.logEntries)
    (hreach : args.prevLogIndex + args.entries.length ≤ r.2.logEntries.length)
    (h64 : args.prevLogIndex + args.entries.length < 2 ^ 64)
    (hcommit : args.leaderCommit ≤ args.prevLogIndex + args.entries.length) :
    args.leaderCommit ≤ r.2.metadata.commitIndex := by
  cases handleAppendEntries_way h with
  | old | mismatch => exact absurd hsuccess (by simp)
  | stored hnew hprev s' hs' =>
    obtain ⟨es, hc⟩ := s'.followCommit_commits args
    dsimp only at hlog hreach ⊢
    rw [hc.logEntries] at hlog hreach
    rcases followCommit_cases args hlog hreach h64 rfl with ⟨-, heq⟩ | ⟨hle, heq⟩
    · rw [heq, raiseCommit_commitIndex, min_eq_left hcommit]
    · rwa [heq, ← min_eq_left hcommit]

theorem le_advanceCommit (s : Server) :
    s.metadata.commitIndex ≤ s.advanceCommit.metadata.commitIndex := by
  rcases s.advanceCommit_cases with heq | ⟨n, -, hscan, heq⟩
  · rw [heq]
  · rw [heq, commitTo, applyCommitted_commitIndex]
    exact (commitScan_eq_some hscan).1.le

/-- A leader whose last entry is of its term commits all of its log when everybody has it. -/
theorem length_le_advanceCommit (hrole : s.role = .leader) (hlog : Indexed s.logEntries)
    (hlast : s.logEntries[s.logEntries.length - 1]?.map LogEntry.term =
      some s.metadata.currentTerm)
    (hall : ∀ q ∈ s.peers, s.logEntries.length ≤ s.matchIndex q) :
    s.logEntries.length ≤ s.advanceCommit.metadata.commitIndex := by
  have hrepl : s.Replicated s.logEntries.length := by
    refine ⟨hlast, ?_⟩
    have hcount : (s.peers.countP fun q => decide (s.logEntries.length ≤ s.matchIndex q)) =
        s.peers.length := List.countP_eq_length.mpr fun q hq => decide_eq_true (hall q hq)
    rw [majority, replicas, hcount]
    omega
  rcases advanceCommit_rule hrole hlog with ⟨heq, hnone⟩ | ⟨n, ⟨hmay, hmax⟩, hn, -⟩
  · rw [heq]
    exact Nat.not_lt.mp fun hlt => hnone _ ⟨hlt, hrepl⟩
  · rw [hn]
    by_contra hlt
    exact hlt (hmax ⟨hmay.1.trans (Nat.not_le.mp hlt), hrepl⟩)

/-- Still the leader that it was; only of `p` it may know something new. -/
structure Persists (p : ℕ) (s s' : Server) : Prop where
  role : s'.role = .leader
  term : s'.metadata.currentTerm = s.metadata.currentTerm
  log : s'.logEntries = s.logEntries
  commit : s.metadata.commitIndex ≤ s'.metadata.commitIndex
  matched : ∀ q, q ≠ p → s'.matchIndex q = s.matchIndex q

/-- **A leader goes on** after a reply in its term. -/
theorem handleAppendEntriesReply_persists (hrole : s.role = .leader)
    (hreply : reply.term ≤ s.metadata.currentTerm) :
    s.Persists p (s.handleAppendEntriesReply p args reply) := by
  generalize hs' : s.handleAppendEntriesReply p args reply = s'
  cases handleAppendEntriesReply_way hs' with
  | stepsDown hlt => exact absurd hreply (by omega)
  | ignored => exact ⟨hrole, rfl, rfl, le_rfl, fun _ _ => rfl⟩
  | backed => exact ⟨hrole, rfl, rfl, le_rfl, fun _ _ => rfl⟩
  | credited =>
    obtain ⟨es, hc⟩ := ((s.reached p).withCredit p args).advanceCommit_commits
    rw [creditPeer_eq]
    exact ⟨hc.role.trans hrole, hc.currentTerm, hc.logEntries,
      ((s.reached p).withCredit p args).le_advanceCommit, fun q hq =>
        (congrFun hc.matchIndex q).trans ((s.reached p).creditedMatch_of_ne hq args)⟩

/-- It credits the peer with what it has accepted, and then commits what it can. -/
theorem handleAppendEntriesReply_credits (hrole : s.role = .leader)
    (hreply : reply.term ≤ s.metadata.currentTerm) (hterm : args.term = s.metadata.currentTerm)
    (hsuccess : reply.success = true) (hlog : Indexed s.logEntries)
    (hsent : args.prevLogIndex + args.entries.length = s.logEntries.length)
    (hmatch : s.matchIndex p ≤ s.logEntries.length) (h64 : s.logEntries.length + 1 < 2 ^ 64) :
    (s.handleAppendEntriesReply p args reply).matchIndex p = s.logEntries.length ∧
      (s.logEntries[s.logEntries.length - 1]?.map LogEntry.term = some s.metadata.currentTerm →
        (∀ q ∈ s.peers, q ≠ p → s.logEntries.length ≤ s.matchIndex q) →
          s.logEntries.length ≤
            (s.handleAppendEntriesReply p args reply).metadata.commitIndex) := by
  have hself : (s.reached p).creditedMatch p args p = s.logEntries.length := by
    rw [creditedMatch_self, hsent, Nat.mod_eq_of_lt (by omega)]
    exact max_eq_right hmatch
  rw [handleAppendEntriesReply_accepted p hrole hreply hterm hsuccess]
  refine ⟨?_, fun hlast hall => ?_⟩
  · obtain ⟨es, hc⟩ := ((s.reached p).withCredit p args).advanceCommit_commits
    exact (congrFun hc.matchIndex p).trans hself
  · refine length_le_advanceCommit (s := (s.reached p).withCredit p args) hrole hlog hlast
      fun q hq => ?_
    show s.logEntries.length ≤ (s.reached p).creditedMatch p args q
    by_cases hqp : q = p
    · rw [hqp, hself]
    · rw [creditedMatch_of_ne _ hqp]
      exact hall q hq hqp

/-- It goes one entry back for a peer that has refused. -/
theorem handleAppendEntriesReply_backs (hrole : s.role = .leader)
    (hreply : reply.term ≤ s.metadata.currentTerm) (hterm : args.term = s.metadata.currentTerm)
    (hfail : reply.success = false) (hnext : 1 < s.nextIndex p) :
    (s.handleAppendEntriesReply p args reply).nextIndex p < s.nextIndex p := by
  rw [handleAppendEntriesReply_refused hrole hreply hterm hfail hnext]
  dsimp only
  rw [Function.update_self]
  omega

end Server

namespace Cluster

variable {conf : Config} {c c' : Cluster} {i p N n : ℕ} {log : List LogEntry}

/-! ## What a leader's log tells of the others -/

/-- A member is what the configuration says. -/
theorem Reached.config (h : Reached conf c) (hi : i ∈ conf.members) :
    (c.hosts i).server.nodeId = i ∧ (c.hosts i).server.peers = conf.peers i := by
  obtain ⟨tr, hrun⟩ := h
  obtain ⟨a, ha⟩ := refined hrun
  exact ⟨(ha.refines hi).nodeId, (ha.refines hi).peers⟩

/-- The last entry of a leader's log is of its term. -/
theorem Reached.last_term (h : Reached conf c) (hi : i ∈ conf.members)
    (hrole : (c.hosts i).server.role = .leader) :
    (c.hosts i).server.logEntries[(c.hosts i).server.logEntries.length - 1]?.map LogEntry.term =
      some (c.term i) := by
  obtain ⟨tr, hrun⟩ := h
  obtain ⟨a, ha, hopen⟩ := opens hrun
  have hinv := ha.sim.logInv
  have hterm : c.term i = a.term i := (ha.refines hi).term
  have hlog : (c.hosts i).server.logEntries = a.leaderLog (c.term i) := by
    rw [hterm]
    exact (ha.refines hi).log.trans (hinv.leader_log i ((ha.standing hi).leads hrole))
  obtain ⟨won, hmark⟩ := ha.elections.leads i hi hrole
  have hwon : (i, .effect (.becomeLeader (c.term i) won)) ∈ tr := mem_effects.mp hmark
  have helect : a.electLog (c.term i) = won := (ha.explained_mem hrun hwon).2
  -- beyond the log that has won there is at least the NOOP
  have hlen := (hopen hwon).length_le
  rw [List.length_append, List.length_singleton, ← hlog] at hlen
  obtain ⟨e, he⟩ : ∃ e, (c.hosts i).server.logEntries[
      (c.hosts i).server.logEntries.length - 1]? = some e :=
    ⟨_, List.getElem?_eq_getElem (by omega)⟩
  have hown : e ∈ (a.leaderLog (c.term i)).drop (a.electLog (c.term i)).length := by
    rw [helect, ← hlog]
    refine List.mem_of_getElem?
      (i := (c.hosts i).server.logEntries.length - 1 - won.length) ?_
    rw [List.getElem?_drop, ← he]
    congr 1
    omega
  rw [he]
  exact congrArg some (hinv.own_term hown)

/-- A peer in the leader's term that is credited with all of the leader's log has this log. -/
theorem Reached.same_log (h : Reached conf c) (hi : i ∈ conf.members)
    (hrole : (c.hosts i).server.role = .leader) (hp : p ∈ conf.peers i)
    (hterm : c.term p = c.term i)
    (hmatch : (c.hosts i).server.matchIndex p = (c.hosts i).server.logEntries.length) :
    (c.hosts p).server.logEntries = (c.hosts i).server.logEntries := by
  have hlast := h.last_term hi hrole
  obtain ⟨tr, hrun⟩ := h
  obtain ⟨a, ha⟩ := refined hrun
  obtain ⟨hpmem, hpi⟩ := (conf.mem_peers i hi p).mp hp
  have hinv := ha.sim.logInv
  have hi' := ha.refines hi
  have hp' := ha.refines hpmem
  have hst := ha.standing hi
  have hlead := hst.leads hrole
  have hlog := hinv.leader_log i hlead
  have hterms : a.term p = a.term i := hp'.term.symm.trans (hterm.trans hi'.term)
  have hti : c.term i = a.term i := hi'.term
  rw [hi'.log, hti] at hlast
  rw [hi'.log] at hmatch
  rw [hp'.log, hi'.log]
  have hlen : 0 < (a.log i).length := by
    obtain ⟨e, he, -⟩ := Option.map_eq_some_iff.mp hlast
    have := (List.getElem?_eq_some_iff.mp he).1
    omega
  have hacked : (a.log i).length ≤ a.acked p (a.term i) := by
    rw [← hmatch]
    exact hst.matched hrole p (hi'.peers ▸ hp)
  -- the peer has all of it
  have hpre : a.log i <+: a.log p := by
    have hheld := ha.sim.safetyInv.acked_held (v := p) (n := (a.log i).length)
      ⟨by rw [hterms, ← hlog], Or.inl ⟨hterms ▸ hacked, hlen⟩⟩
    rwa [hterms, ← hlog, List.take_length] at hheld
  -- and no more, since more would be of the leader's term too
  refine (hpre.eq_of_length_le ?_).symm
  by_contra hlt
  obtain ⟨e, he⟩ : ∃ e, (a.log p)[(a.log p).length - 1]? = some e :=
    ⟨_, List.getElem?_eq_getElem (by omega)⟩
  obtain ⟨e', he', hterm'⟩ := Option.map_eq_some_iff.mp hlast
  have hge : e'.term ≤ e.term := by
    refine hinv.term_le_of_le (hinv.log_matched p) (j := (a.log i).length - 1) ?_ he (by omega)
    obtain ⟨t, ht⟩ := hpre
    rw [← ht, List.getElem?_append_left (by omega), he']
  have hle : e.term ≤ a.term p := hinv.log_term (List.mem_of_getElem? he)
  have hmatched := hinv.log_matched p _ e he
  have heq : e.term = a.term i := by omega
  have htake : (a.log p).take ((a.log p).length - 1 + 1) = a.log p :=
    List.take_of_length_le (by omega)
  rw [htake] at hmatched
  have hle' := hmatched.length_le
  have hterm_e : Protocol.Termed.term e = a.term i := heq
  rw [hterm_e, ← hlog] at hle'
  exact hlt hle'

/-! ## A leader and its peers -/

/-- Node `i` leads term `N`, which nobody is beyond, with a given log. -/
structure Leading (conf : Config) (i N : ℕ) (log : List LogEntry) (c : Cluster) : Prop where
  reached : Reached conf c
  role : (c.hosts i).server.role = .leader
  term : c.term i = N
  log : (c.hosts i).server.logEntries = log
  highest : ∀ j ∈ conf.members, c.term j ≤ N
  short : ∀ j ∈ conf.members, c.Short j

/-- What an exchange between `i` and `p` leaves alone, and what it does not undo. -/
structure Spared (i p : ℕ) (c c' : Cluster) : Prop where
  others : ∀ j, j ≠ i → j ≠ p → c'.hosts j = c.hosts j
  waiting : (c'.hosts i).waiting = (c.hosts i).waiting
  matched : ∀ q, q ≠ p →
    (c'.hosts i).server.matchIndex q = (c.hosts i).server.matchIndex q
  commit : (c.hosts i).server.metadata.commitIndex ≤ (c'.hosts i).server.metadata.commitIndex

theorem Spared.refl (c : Cluster) : Spared i p c c :=
  ⟨fun _ _ _ => rfl, rfl, fun _ _ => rfl, le_rfl⟩

theorem Spared.trans {c'' : Cluster} (h : Spared i p c c') (h' : Spared i p c' c'') :
    Spared i p c c'' where
  others j hj hjp := (h'.others j hj hjp).trans (h.others j hj hjp)
  waiting := h'.waiting.trans h.waiting
  matched q hq := (h'.matched q hq).trans (h.matched q hq)
  commit := h.commit.trans h'.commit

/-- Peer `p` follows node `i` in term `N`, and has committed `n` entries. -/
structure Follows (i N n p : ℕ) (c : Cluster) : Prop where
  role : (c.hosts p).server.role = .follower
  leader : (c.hosts p).server.currentLeaderId = i
  term : c.term p = N
  commit : n ≤ (c.hosts p).server.metadata.commitIndex

/-- The leader knows that peer `p` has all of its log. -/
def MatchedAt (i : ℕ) (log : List LogEntry) (p : ℕ) (c : Cluster) : Prop :=
  (c.hosts i).server.matchIndex p = log.length

/-- It commits its log when all peers have it. -/
def Committed (conf : Config) (i : ℕ) (log : List LogEntry) (c : Cluster) : Prop :=
  (∀ q ∈ conf.peers i, MatchedAt i log q c) →
    log.length ≤ (c.hosts i).server.metadata.commitIndex

/-- What a leader knows of a peer fits its log. -/
theorem Leading.bounds (h : Leading conf i N log c) (hi : i ∈ conf.members)
    (hp : p ∈ conf.peers i) :
    Indexed log ∧ (c.hosts i).server.nextIndex p ≤ log.length + 1 ∧
      (c.hosts i).server.matchIndex p ≤ log.length ∧
        (c.hosts i).server.metadata.commitIndex ≤ log.length := by
  obtain ⟨tr, hrun⟩ := h.reached
  obtain ⟨a, ha⟩ := refined hrun
  have hst := ha.standing hi
  have hlog : log = a.log i := h.log.symm.trans (ha.refines hi).log
  have hpeer : p ∈ (c.hosts i).server.peers := (ha.refines hi).peers ▸ hp
  rw [hlog]
  refine ⟨ha.sim.indexed_log (ha.sim.logInv.log_matched i), hst.next h.role p hpeer, ?_, ?_⟩
  · rw [ha.sim.logInv.leader_log i (hst.leads h.role)]
    exact (hst.matched h.role p hpeer).trans (ha.sim.logInv.acked_le p _)
  · rw [(ha.refines hi).commit]
    exact ha.sim.commit_le_log i

section Exchanged

variable {s s' : Server} (h : Leading conf i N log c)
  (hhosts : c'.hosts = Function.update (Function.update c.hosts p ((c.hosts p).leave s')) i
    ((c.hosts i).leave s))
  (hpers : (c.hosts i).server.Persists p s)

include hhosts

theorem hosts_of_exchanged (hpi : p ≠ i) : c'.hosts i = (c.hosts i).leave s ∧
    c'.hosts p = (c.hosts p).leave s' ∧ ∀ j, j ≠ i → j ≠ p → c'.hosts j = c.hosts j := by
  refine ⟨?_, ?_, fun j hj hjp => ?_⟩ <;> rw [hhosts]
  · exact Function.update_self ..
  · rw [Function.update_of_ne hpi, Function.update_self]
  · rw [Function.update_of_ne hj, Function.update_of_ne hjp]

include hpers

theorem spared_of_exchanged (hpi : p ≠ i) : Spared i p c c' := by
  obtain ⟨hself, -, hother⟩ := hosts_of_exchanged hhosts hpi
  refine ⟨hother, ?_, fun q hq => ?_, ?_⟩ <;> rw [hself]
  · rfl
  · exact hpers.matched q hq
  · exact hpers.commit

include h

/-- The leader leads on after an exchange with a peer that is in its term then. -/
theorem Leading.exchanged (hpi : p ≠ i) (hreached : Reached conf c') (hi : i ∈ conf.members)
    (hterm : s'.metadata.currentTerm = N)
    (hshort : s'.logEntries.length + 1 < 2 ^ 64) : Leading conf i N log c' := by
  obtain ⟨hself, hpeer, hother⟩ := hosts_of_exchanged hhosts hpi
  refine ⟨hreached, ?_, ?_, ?_, fun j hj => ?_, fun j hj => ?_⟩
  · rw [hself]
    exact hpers.role
  · rw [Cluster.term, hself]
    exact hpers.term.trans h.term
  · rw [hself]
    exact hpers.log.trans h.log
  · by_cases hji : j = i
    · rw [hji, Cluster.term, hself]
      exact (hpers.term.trans h.term).le
    by_cases hjp : j = p
    · rw [hjp, Cluster.term, hpeer]
      exact hterm.le
    · rw [Cluster.term, hother j hji hjp]
      exact h.highest j hj
  · by_cases hji : j = i
    · rw [hji, Short, hself]
      show s.logEntries.length + 1 < 2 ^ 64
      rw [hpers.log]
      exact h.short i hi
    by_cases hjp : j = p
    · rw [hjp, Short, hpeer]
      exact hshort
    · rw [Short, hother j hji hjp]
      exact h.short j hj

end Exchanged

/-- **One exchange.**  The peer follows with all of the log, or the leader goes one entry back. -/
theorem Leading.round (h : Leading conf i N log c) (hi : i ∈ conf.members)
    (hp : p ∈ conf.peers i) (hfit : Sendable log) :
    Leads (machine conf) Unaided c fun c' => Leading conf i N log c' ∧ Spared i p c c' ∧
      ((Follows i N (c.hosts i).server.metadata.commitIndex p c' ∧ MatchedAt i log p c' ∧
          Committed conf i log c') ∨
        (c'.hosts i).server.nextIndex p < (c.hosts i).server.nextIndex p) := by
  obtain ⟨hpmem, hpi⟩ := (conf.mem_peers i hi p).mp hp
  obtain ⟨hindexed, hnext, hmatch, hcommit⟩ := h.bounds hi hp
  rw [← h.log] at hindexed hnext hmatch hcommit
  obtain ⟨args, hargs, hterm, hid, hleaderCommit, hsent, hsub, hprev⟩ :=
    Server.exists_appendEntriesArgs h.role hnext
  have hsize : (serializeAppendEntriesArgs args).length < 2 ^ 32 := by
    rw [length_serializeAppendEntriesArgs]
    exact hfit.of_sublist (h.log ▸ hsub)
  have hshort := h.short i hi
  obtain ⟨r, hr, hlead⟩ := h.reached.exchange hi hp hshort (h.short p hpmem) hargs hsize
  -- the peer is in the leader's term then
  have hle : (c.hosts p).server.metadata.currentTerm ≤ args.term := by
    rw [hterm]
    exact (h.highest p hpmem).trans h.term.ge
  obtain ⟨hreply, hcurrent⟩ := Server.handleAppendEntries_currentTerm hr hle
  have hcurrent' : r.2.metadata.currentTerm = N := hcurrent.trans (hterm.trans h.term)
  have hreply' : r.1.term ≤ (c.hosts i).server.metadata.currentTerm :=
    (hreply.trans hterm).le
  have hpers : (c.hosts i).server.Persists p
      ((c.hosts i).server.handleAppendEntriesReply p args r.1) :=
    Server.handleAppendEntriesReply_persists h.role hreply'
  refine hlead.mono ?_
  rintro c' ⟨hreached, hhosts⟩
  have hspared := spared_of_exchanged hhosts hpers hpi
  have hled := h.exchanged hhosts hpers hpi hreached hi hcurrent'
  obtain ⟨hself, hpeer, -⟩ := hosts_of_exchanged hhosts hpi
  rcases hsuccess : r.1.success with _ | _
  · have hback := hprev (Server.prevLogIndex_ne_zero hr hle hsuccess)
    refine ⟨hled ?_, hspared, Or.inr ?_⟩
    · rcases Server.handleAppendEntries_cases hr with ⟨-, hsame, -⟩ | ⟨htrue, -⟩
      · rw [hsame]
        exact h.short p hpmem
      · exact absurd (hsuccess.symm.trans htrue) (by simp)
    · rw [hself]
      exact Server.handleAppendEntriesReply_backs h.role hreply' hterm hsuccess hback
  · obtain ⟨hcredit, hcommits⟩ := Server.handleAppendEntriesReply_credits h.role hreply' hterm
      hsuccess hindexed hsent hmatch hshort
    -- the peer has the leader's log
    have hsame : r.2.logEntries = (c.hosts i).server.logEntries := by
      have hrole' : (c'.hosts i).server.role = .leader := by
        rw [hself]
        exact hpers.role
      have hterm' : c'.term p = c'.term i := by
        rw [Cluster.term, Cluster.term, hself, hpeer]
        exact hcurrent'.trans (hpers.term.trans h.term).symm
      have hsame := hreached.same_log hi hrole' hp hterm' (by
        rw [hself]
        exact hcredit.trans (congrArg List.length hpers.log).symm)
      rw [hself, hpeer] at hsame
      exact hsame.trans hpers.log
    obtain ⟨hrole, hleader⟩ := Server.handleAppendEntries_follows hr hle
    refine ⟨hled (by rw [hsame]; exact hshort), hspared, Or.inl ⟨⟨?_, ?_, ?_, ?_⟩, ?_, ?_⟩⟩
    · rw [hpeer]
      exact hrole
    · rw [hpeer]
      exact hleader.trans (hid.trans (h.reached.config hi).1)
    · rw [Cluster.term, hpeer]
      exact hcurrent'
    · rw [hpeer, ← hleaderCommit]
      refine Server.le_commitIndex_of_success hr hsuccess ?_ ?_ ?_ ?_
      · rw [hsame]
        exact hindexed
      · rw [hsame, hsent]
      · rw [hsent]
        exact Nat.lt_of_succ_lt hshort
      · rw [hsent, hleaderCommit]
        exact hcommit
    · rw [MatchedAt, hself, ← h.log]
      exact hcredit
    · intro hall
      rw [← h.log, hself]
      refine hcommits (h.reached.last_term hi h.role) fun q hq hqp => ?_
      have hq' : (c'.hosts i).server.matchIndex q = log.length :=
        hall q ((h.reached.config hi).2 ▸ hq)
      rw [hspared.matched q hqp, ← h.log] at hq'
      exact hq'.ge

/-- **Exchange after exchange**, until the peer follows with all of the log. -/
theorem Leading.sync (h : Leading conf i N log c) (hi : i ∈ conf.members)
    (hp : p ∈ conf.peers i) (hfit : Sendable log) :
    Leads (machine conf) Unaided c fun c' => Leading conf i N log c' ∧ Spared i p c c' ∧
      Follows i N (c.hosts i).server.metadata.commitIndex p c' ∧ MatchedAt i log p c' ∧
        Committed conf i log c' := by
  refine Leads.of_decreasing (I := fun c' => Leading conf i N log c' ∧ Spared i p c c')
    (fun c' => (c'.hosts i).server.nextIndex p) ?_ ⟨h, .refl c⟩
  rintro c₁ ⟨hlead₁, hspared₁⟩
  refine (hlead₁.round hi hp hfit).mono ?_
  rintro c₂ ⟨hlead₂, hspared₂, ⟨hfollows, hrest⟩ | hlt⟩
  · refine Or.inl ⟨hlead₂, hspared₁.trans hspared₂, ?_, hrest⟩
    exact { hfollows with commit := hspared₁.commit.trans hfollows.commit }
  · exact Or.inr ⟨⟨hlead₂, hspared₁.trans hspared₂⟩, hlt⟩

/-! ## All of them -/

theorem Spared.matchedAt (h : Spared i p c c') {q : ℕ} (hq : q ≠ p) (hm : MatchedAt i log q c) :
    MatchedAt i log q c' := (h.matched q hq).trans hm

/-- All peers stay matched. -/
theorem Spared.allMatched (h : Spared i p c c') (hm : MatchedAt i log p c')
    (hall : ∀ q ∈ conf.peers i, MatchedAt i log q c) :
    ∀ q ∈ conf.peers i, MatchedAt i log q c' := by
  intro q hq
  by_cases hqp : q = p
  · exact hqp ▸ hm
  · exact h.matchedAt hqp (hall q hq)

/-- **A leader's log gets to all of its peers**, and is committed then. -/
theorem Leading.commits (h : Leading conf i N log c) (hi : i ∈ conf.members)
    (hpeers : conf.peers i ≠ []) (hfit : Sendable log) :
    Leads (machine conf) Unaided c fun c' => Leading conf i N log c' ∧
      (c'.hosts i).waiting = (c.hosts i).waiting ∧
        (∀ q ∈ conf.peers i, MatchedAt i log q c') ∧
          log.length ≤ (c'.hosts i).server.metadata.commitIndex := by
  have hmatch : Leads (machine conf) Unaided c fun c' => (Leading conf i N log c' ∧
      (c'.hosts i).waiting = (c.hosts i).waiting) ∧
        ∀ q ∈ conf.peers i, MatchedAt i log q c' := by
    refine Leads.forall ?_ ⟨h, rfl⟩
    rintro p hp c₁ ⟨hlead, hwait⟩
    refine (hlead.sync hi hp hfit).mono ?_
    rintro c₂ ⟨hlead', hspared, -, hm, -⟩
    exact ⟨⟨hlead', hspared.waiting.trans hwait⟩, hm, fun q hq => hspared.matchedAt hq⟩
  -- one more exchange, in which the leader finds that everybody has its log
  obtain ⟨p, hp⟩ := List.exists_mem_of_ne_nil _ hpeers
  refine hmatch.trans ?_
  rintro c₁ ⟨⟨hlead, hwait⟩, hall⟩
  refine (hlead.sync hi hp hfit).mono ?_
  rintro c₂ ⟨hlead', hspared, -, hm, hcommits⟩
  have hall' := hspared.allMatched hm hall
  exact ⟨hlead', hspared.waiting.trans hwait, hall', hcommits hall'⟩

/-- **Everything is settled**: node `i` leads and the others follow it; all have one log, and have
committed and applied all of it. -/
structure Settled (conf : Config) (i : ℕ) (c : Cluster) : Prop where
  leads : (c.hosts i).server.role = .leader
  follows : ∀ p ∈ conf.peers i, (c.hosts p).server.role = .follower ∧
    (c.hosts p).server.currentLeaderId = i
  term : ∀ p ∈ conf.members, c.term p = c.term i
  log : ∀ p ∈ conf.members, (c.hosts p).server.logEntries = (c.hosts i).server.logEntries
  committed : ∀ p ∈ conf.members,
    (c.hosts p).server.metadata.commitIndex = (c.hosts i).server.logEntries.length
  applied : ∀ p ∈ conf.members,
    (c.hosts p).server.metadata.lastApplied = (c.hosts i).server.logEntries.length ∧
      (c.hosts p).server.stateMachine = .replay (c.hosts i).server.logEntries

/-- With all peers matched and following, everything is settled. -/
theorem Leading.settled (h : Leading conf i N log c) (hi : i ∈ conf.members)
    (hcommit : log.length ≤ (c.hosts i).server.metadata.commitIndex)
    (hmatched : ∀ q ∈ conf.peers i, MatchedAt i log q c)
    (hfollows : ∀ p ∈ conf.peers i, Follows i N log.length p c) : Settled conf i c := by
  obtain ⟨tr, hrun⟩ := h.reached
  obtain ⟨a, ha⟩ := refined hrun
  have hcases : ∀ p ∈ conf.members, p = i ∨ p ∈ conf.peers i := fun p hp =>
    or_iff_not_imp_left.mpr fun hne => (conf.mem_peers i hi p).mpr ⟨hp, hne⟩
  have hterm : ∀ p ∈ conf.members, c.term p = c.term i := by
    intro p hp
    rcases hcases p hp with rfl | hpeer
    · rfl
    · exact (hfollows p hpeer).term.trans h.term.symm
  have hlog : ∀ p ∈ conf.members, (c.hosts p).server.logEntries = log := by
    intro p hp
    rcases hcases p hp with rfl | hpeer
    · exact h.log
    · refine (h.reached.same_log hi h.role hpeer (hterm p hp) ?_).trans h.log
      exact (hmatched p hpeer).trans (by rw [h.log])
  have hcommitted : ∀ p ∈ conf.members,
      (c.hosts p).server.metadata.commitIndex = log.length := by
    intro p hp
    refine le_antisymm ?_ ?_
    · rw [(ha.refines hp).commit, ← hlog p hp, (ha.refines hp).log]
      exact ha.sim.commit_le_log p
    · rcases hcases p hp with rfl | hpeer
      · exact hcommit
      · exact (hfollows p hpeer).commit
  refine ⟨h.role, fun p hp => ⟨(hfollows p hp).role, (hfollows p hp).leader⟩, hterm,
    fun p hp => (hlog p hp).trans h.log.symm, fun p hp => ?_, fun p hp => ⟨?_, ?_⟩⟩
  · rw [h.log]
    exact hcommitted p hp
  · rw [h.log, (ha.refines hp).lastApplied, ← (ha.refines hp).commit]
    exact hcommitted p hp
  · have htake : (a.log p).take (a.commit p) = log := by
      rw [← (ha.refines hp).log, ← (ha.refines hp).commit, hcommitted p hp, hlog p hp,
        List.take_length]
    rw [(ha.refines hp).stateMachine, htake, h.log]

/-- **A leader settles everything**: when its log is committed, it tells its peers. -/
theorem Leading.settles (h : Leading conf i N log c) (hi : i ∈ conf.members)
    (hpeers : conf.peers i ≠ []) (hfit : Sendable log) :
    Leads (machine conf) Unaided c (Settled conf i) := by
  refine (h.commits hi hpeers hfit).trans ?_
  rintro c₁ ⟨hlead, -, hall, hcommit⟩
  have htold : Leads (machine conf) Unaided c₁ fun c' => (Leading conf i N log c' ∧
      (∀ q ∈ conf.peers i, MatchedAt i log q c') ∧
        log.length ≤ (c'.hosts i).server.metadata.commitIndex) ∧
          ∀ p ∈ conf.peers i, Follows i N log.length p c' := by
    refine Leads.forall ?_ ⟨hlead, hall, hcommit⟩
    rintro p hp c₂ ⟨hlead₂, hall₂, hcommit₂⟩
    refine (hlead₂.sync hi hp hfit).mono ?_
    rintro c₃ ⟨hlead₃, hspared, hfollows, hm, -⟩
    refine ⟨⟨hlead₃, hspared.allMatched hm hall₂, hcommit₂.trans hspared.commit⟩,
      { hfollows with commit := hcommit₂.trans hfollows.commit }, fun q hq hF => ?_⟩
    -- a follower is not the leader, so its host is not touched
    have hqi : q ≠ i := by
      rintro rfl
      exact absurd (hF.role.symm.trans hlead₂.role) (by simp)
    have hhost := hspared.others q hqi hq
    exact ⟨hhost ▸ hF.role, hhost ▸ hF.leader, by rw [Cluster.term, hhost]; exact hF.term,
      hhost ▸ hF.commit⟩
  refine htold.mono ?_
  rintro c₂ ⟨⟨hlead₂, hall₂, hcommit₂⟩, hfollow⟩
  exact hlead₂.settled hi hcommit₂ hall₂ hfollow

end Cluster

end RaftConsensus
