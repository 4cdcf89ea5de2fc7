import RaftConsensus.CatchingUp
import RaftConsensus.Clients
import RaftConsensus.Quorums
import Mathlib.Data.Prod.Lex
import Mathlib.Data.Finset.Max

/-!
# A cluster can always recover

Safety says what a cluster never does, and a cluster that does nothing is safe.  Here is what it
can always do: from every state that it can get into, its members bring themselves back to where one
of them leads and all the others follow it, with one log that is committed and applied everywhere.
No crash is needed for it, no message has to get lost, no connection has to fail, and no client has
to come: all steps are `Unaided`.

If there is a leader whose term nobody is beyond, it can do it.  Otherwise a node with a newest log
can stand for election until its term is later than all others.  Nobody has voted in this term,
and nobody's log is newer, so everybody votes for it.

* `Eligible.stands`: a node gets to a term of its own.
* `Polled.wins`: it wins there.
* `Cluster.recoverable`: the cluster recovers.
* `Cluster.available`: and then it serves a client.
-/

namespace RaftConsensus

namespace Server

/-- What votes compare: the term of the last entry, then its index. -/
def newness (s : Server) : ℕ ×ₗ ℕ := toLex (s.getLastLogTerm, s.getLastLogIndex)

theorem newness_congr {s s' : Server} (h : s'.logEntries = s.logEntries) :
    s'.newness = s.newness := by
  rw [newness, newness, getLastLogTerm, getLastLogTerm, getLastLogIndex, getLastLogIndex, h]

/-- **A vote in a new term** goes to whoever asks first, if its log is not older. -/
theorem handleRequestVote_newer {s s' : Server}
    (hterm : s.metadata.currentTerm < s'.metadata.currentTerm) (hnew : s.newness ≤ s'.newness) :
    s.handleRequestVote s'.requestVoteArgs = (⟨s'.metadata.currentTerm, true⟩,
      (s.stepDown s'.metadata.currentTerm).grantVote s'.nodeId) := by
  have hup : s.getLastLogTerm < s'.getLastLogTerm ∨
      s.getLastLogTerm = s'.getLastLogTerm ∧ s.getLastLogIndex ≤ s'.getLastLogIndex :=
    Prod.Lex.le_iff.mp hnew
  have hcan : (s.stepDown s'.metadata.currentTerm).canVote s'.requestVoteArgs = true := by
    have hlog : (s.stepDown s'.metadata.currentTerm).getLastLogTerm = s.getLastLogTerm ∧
        (s.stepDown s'.metadata.currentTerm).getLastLogIndex = s.getLastLogIndex := ⟨rfl, rfl⟩
    rw [canVote, hlog.1, hlog.2, Bool.and_eq_true]
    refine ⟨rfl, ?_⟩
    rcases hup with hlt | ⟨heq, hle⟩
    · exact Bool.or_eq_true_iff.mpr (Or.inl (decide_eq_true hlt))
    · refine Bool.or_eq_true_iff.mpr (Or.inr ?_)
      rw [Bool.and_eq_true]
      exact ⟨decide_eq_true heq.symm, decide_eq_true hle⟩
  have hold : ¬ s'.requestVoteArgs.term < s.metadata.currentTerm := Nat.not_lt.mpr hterm.le
  have hlater : s.metadata.currentTerm < s'.requestVoteArgs.term := hterm
  rw [handleRequestVote, if_neg hold]
  dsimp only
  rw [if_pos hlater]
  exact if_pos hcan

/-- A leader takes a request, and leads on. -/
theorem propose_leads {s : Server} (hrole : s.role = .leader) (hlog : Indexed s.logEntries)
    (hlen : s.logEntries.length + 1 < 2 ^ 64) (request : Request) :
    ∃ w s', s.propose request = some (w, s') ∧ w.request = request ∧
      w.index = s.logEntries.length + 1 ∧ w.term = s.metadata.currentTerm ∧
        s'.role = .leader ∧ s'.running = s.running ∧
          s'.metadata.currentTerm = s.metadata.currentTerm ∧
            s'.logEntries = s.logEntries ++ [w.entry] := by
  let w : Waiter := ⟨request, s.nextLogIndex, s.metadata.currentTerm⟩
  obtain ⟨es, hc⟩ := (s.appendEntry w.entry).advanceCommit_commits
  refine ⟨w, (s.appendEntry w.entry).advanceCommit, if_neg (by simp [hrole]), rfl, ?_, rfl,
    hc.role.trans hrole, hc.running, hc.currentTerm, hc.logEntries⟩
  show (s.getLastLogIndex + 1) % 2 ^ 64 = s.logEntries.length + 1
  rw [hlog.getLastLogIndex, Nat.mod_eq_of_lt hlen]

/-- A leader that runs gives a client a result if its wait is over, that is, if its entry is
committed. -/
theorem isResult_of_waitOver {s : Server} {w : Waiter} (hrunning : s.running = true)
    (hrole : s.role = .leader) (hover : s.waitOver w = true) : (s.answer w).isResult = true := by
  have hle : w.index ≤ s.metadata.commitIndex := by
    simpa [waitOver, hrunning, hrole] using hover
  rw [answer, if_neg (by simp [hrunning]), if_neg (by simp [hrole, hle])]
  split
  · split <;> rfl
  · rfl

end Server

namespace Cluster

variable {conf : Config} {c c' : Cluster} {i p N M : ℕ} {log : List LogEntry} {rest : List ℕ}

/-! ## Standing for election -/

/-- No log is newer than that of node `i`. -/
def Newest (conf : Config) (i : ℕ) (c : Cluster) : Prop :=
  ∀ j ∈ conf.members, (c.hosts j).server.newness ≤ (c.hosts i).server.newness

/-- Node `i` does not lead, its log is a newest one, and no term is beyond `M`. -/
structure Eligible (conf : Config) (i M : ℕ) (log : List LogEntry) (c : Cluster) : Prop where
  reached : Reached conf c
  role : (c.hosts i).server.role ≠ .leader
  log : (c.hosts i).server.logEntries = log
  highest : ∀ j ∈ conf.members, c.term j ≤ M
  newest : Newest conf i c
  short : ∀ j ∈ conf.members, c.Short j

/-- Node `i` has just stood for election, in a term `N` that is later than all others. -/
structure Stands (conf : Config) (i N : ℕ) (log : List LogEntry) (c : Cluster) : Prop where
  reached : Reached conf c
  campaigning : (c.hosts i).campaigning = true
  role : (c.hosts i).server.role = .candidate
  term : c.term i = N
  votes : (c.hosts i).server.votesReceived = 1
  log : (c.hosts i).server.logEntries = log
  later : ∀ j ∈ conf.members, j ≠ i → c.term j < N
  newest : Newest conf i c
  short : ∀ j ∈ conf.members, c.Short j

/-- All logs are what they were. -/
def SameLogs (conf : Config) (c c' : Cluster) : Prop :=
  ∀ j ∈ conf.members, (c'.hosts j).server.logEntries = (c.hosts j).server.logEntries

theorem SameLogs.newest (h : SameLogs conf c c') (hi : i ∈ conf.members) (hn : Newest conf i c) :
    Newest conf i c' := by
  intro j hj
  rw [Server.newness_congr (h j hj), Server.newness_congr (h i hi)]
  exact hn j hj

theorem SameLogs.short (h : SameLogs conf c c') (hs : ∀ j ∈ conf.members, c.Short j) :
    ∀ j ∈ conf.members, c'.Short j := by
  intro j hj
  rw [Short, h j hj]
  exact hs j hj

theorem sameLogs_of_update {n : Node} (h : c'.hosts = Function.update c.hosts i n)
    (hlog : n.server.logEntries = (c.hosts i).server.logEntries) : SameLogs conf c c' := by
  obtain ⟨hself, hother⟩ := hosts_of_update h
  intro j hj
  by_cases hji : j = i
  · rw [hji, hself, hlog]
  · rw [hother j hji]

/-- It sends the requests of an earlier candidacy, if they are not sent yet. -/
theorem Eligible.idle (h : Eligible conf i M log c) (hi : i ∈ conf.members) :
    Leads (machine conf) Unaided c fun c' => Eligible conf i M log c' ∧
      (c'.hosts i).campaigning = false ∧ c'.term i = c.term i := by
  rcases hcamp : (c.hosts i).campaigning with _ | _
  · exact .refl ⟨h, hcamp, rfl⟩
  obtain ⟨tr, hrun⟩ := h.reached
  obtain ⟨a, ha⟩ := refined hrun
  refine (h.reached.keep (leads_ask hi (h.short i hi) hcamp (ha.mirrored i hi).clean)).mono ?_
  rintro c' ⟨hreached, hhosts, -⟩
  have hlogs : SameLogs conf c c' := sameLogs_of_update hhosts rfl
  obtain ⟨hself, hother⟩ := hosts_of_update hhosts
  have hterm : ∀ j, c'.term j = c.term j := by
    intro j
    by_cases hji : j = i
    · rw [hji, Cluster.term, hself]
    · rw [Cluster.term, hother j hji]
  refine ⟨⟨hreached, ?_, (hlogs i hi).trans h.log, fun j hj => ?_, hlogs.newest hi h.newest,
    hlogs.short h.short⟩, ?_, hterm i⟩
  · rw [hself]
    exact h.role
  · rw [hterm]
    exact h.highest j hj
  · rw [hself]

/-- **It stands for election**, again and again, until its term is later than all others. -/
theorem Eligible.stands (h : Eligible conf i M log c) (hi : i ∈ conf.members)
    (hpeers : conf.peers i ≠ []) (hM : M + 1 < 2 ^ 64) :
    Leads (machine conf) Unaided c (Stands conf i (M + 1) log) := by
  refine Leads.of_decreasing (I := Eligible conf i M log) (fun c' => M - c'.term i) ?_ h
  intro c₀ h₀
  refine (h₀.idle hi).trans ?_
  rintro c₁ ⟨h₁, hcamp, hterm⟩
  have hle := h₁.highest i hi
  have hwrap : c₁.term i + 1 < 2 ^ 64 := by omega
  have hpeers' : (c₁.hosts i).server.peers ≠ [] := by
    rw [(h₁.reached.config hi).2]
    exact hpeers
  refine (h₁.reached.keep (leads_timeout hi (h₁.short i hi) hwrap h₁.role hcamp hpeers')).mono ?_
  rintro c₂ ⟨hreached, hhosts⟩
  have hlogs : SameLogs conf c₁ c₂ := sameLogs_of_update hhosts rfl
  obtain ⟨hself, hother⟩ := hosts_of_update hhosts
  have hterm₂ : c₂.term i = c₁.term i + 1 := by
    rw [Cluster.term, hself]
    exact Nat.mod_eq_of_lt hwrap
  have hrole₂ : (c₂.hosts i).server.role = .candidate := by rw [hself]; rfl
  have hlog₂ : (c₂.hosts i).server.logEntries = log := (hlogs i hi).trans h₁.log
  have hnewest := hlogs.newest hi h₁.newest
  have hshort := hlogs.short h₁.short
  rcases Nat.lt_or_ge (c₁.term i) M with hlt | hge
  · refine Or.inr ⟨⟨hreached, by simp [hrole₂], hlog₂, fun j hj => ?_, hnewest, hshort⟩, ?_⟩
    · by_cases hji : j = i
      · rw [hji, hterm₂]
        exact hlt
      · rw [Cluster.term, hother j hji]
        exact h₁.highest j hj
    · omega
  · refine Or.inl ⟨hreached, by rw [hself], hrole₂, by omega, by rw [hself]; rfl, hlog₂,
      fun j hj hji => ?_, hnewest, hshort⟩
    rw [Cluster.term, hother j hji]
    exact Nat.lt_succ_of_le (h₁.highest j hj)

/-! ## The election -/

/-- Candidate `i` of term `N` has not got its majority yet.  It has asked the peers in `rest`, who
have not had this term. -/
structure Polled (conf : Config) (i N : ℕ) (log : List LogEntry) (rest : List ℕ) (c : Cluster) :
    Prop where
  reached : Reached conf c
  role : (c.hosts i).server.role = .candidate
  term : c.term i = N
  log : (c.hosts i).server.logEntries = log
  highest : ∀ j ∈ conf.members, c.term j ≤ N
  newest : Newest conf i c
  short : ∀ j ∈ conf.members, c.Short j
  undecided : (c.hosts i).server.votesReceived < (c.hosts i).server.majority
  votes : (c.hosts i).server.votesReceived + rest.length = (conf.peers i).length + 1
  nodup : rest.Nodup
  peers : ∀ p ∈ rest, p ∈ conf.peers i
  later : ∀ p ∈ rest, c.term p < N
  requests : ∀ p ∈ rest, .requestVote i (c.hosts i).boot p (c.hosts i).server.requestVoteArgs ∈
    c.network

/-- It asks all of its peers. -/
theorem Stands.asks (h : Stands conf i N log c) (hi : i ∈ conf.members)
    (hpeers : conf.peers i ≠ []) :
    Leads (machine conf) Unaided c (Polled conf i N log (conf.peers i)) := by
  obtain ⟨tr, hrun⟩ := h.reached
  obtain ⟨a, ha⟩ := refined hrun
  have hps := (h.reached.config hi).2
  have hpos : 0 < (conf.peers i).length := List.length_pos_iff.mpr hpeers
  refine (h.reached.keep
    (leads_ask hi (h.short i hi) h.campaigning (ha.mirrored i hi).clean)).mono ?_
  rintro c' ⟨hreached, hhosts, hnet⟩
  have hlogs : SameLogs conf c c' := sameLogs_of_update hhosts rfl
  obtain ⟨hself, hother⟩ := hosts_of_update hhosts
  have hserver : (c'.hosts i).server = (c.hosts i).server := by rw [hself]
  refine ⟨hreached, hserver ▸ h.role, ?_, hserver ▸ h.log, fun j hj => ?_, hlogs.newest hi h.newest,
    hlogs.short h.short, ?_, ?_, conf.nodup i hi, fun p hp => hp, fun p hp => ?_, fun p hp => ?_⟩
  · rw [Cluster.term, hserver]
    exact h.term
  · by_cases hji : j = i
    · rw [hji, Cluster.term, hserver]
      exact h.term.le
    · rw [Cluster.term, hother j hji]
      exact (h.later j hj hji).le
  · rw [hserver, Server.majority, h.votes, hps]
    omega
  · rw [hserver, h.votes, Nat.add_comm]
  · obtain ⟨hpmem, hpi⟩ := (conf.mem_peers i hi p).mp hp
    rw [Cluster.term, hother p hpi]
    exact h.later p hpmem hpi
  · rw [hnet, hself]
    exact List.mem_append_right _ (List.mem_map.mpr ⟨p, hps ▸ hp, rfl⟩)

/-- The hosts after a vote: the voter is in the candidate's term, and has its old log. -/
theorem Polled.voted (h : Polled conf i N log (p :: rest) c) (hi : i ∈ conf.members) :
    Leads (machine conf) Unaided c fun c' => Reached conf c' ∧
      c'.hosts i = (c.hosts i).leave
        (if (c.hosts i).server.majority ≤ (c.hosts i).server.countVote.votesReceived then
          (c.hosts i).server.countVote.becomeLeader else (c.hosts i).server.countVote) ∧
      (c'.term p = N ∧ (c'.hosts p).server.logEntries = (c.hosts p).server.logEntries) ∧
      (∀ j, j ≠ i → j ≠ p → c'.hosts j = c.hosts j) ∧
      ∀ k, k ≠ p → ∀ b args, .requestVote i b k args ∈ c.network →
        .requestVote i b k args ∈ c'.network := by
  obtain ⟨hpmem, hpi⟩ := (conf.mem_peers i hi p).mp (h.peers p List.mem_cons_self)
  have hlt : (c.hosts p).server.metadata.currentTerm <
      (c.hosts i).server.metadata.currentTerm :=
    (h.later p List.mem_cons_self).trans_eq h.term.symm
  have hvote := Server.handleRequestVote_newer hlt (h.newest p hpmem)
  have hterm : (c.hosts i).server.requestVoteArgs.term =
      (c.hosts i).server.metadata.currentTerm := rfl
  refine (h.reached.keep (leads_ballot hi hpmem hpi (h.short i hi) (h.short p hpmem)
    (h.requests p List.mem_cons_self))).mono ?_
  rintro c' ⟨hreached, hhosts, hnet⟩
  rw [hvote, hterm, Canvass.handleRequestVoteReply_grant h.role rfl] at hhosts
  obtain ⟨hself, hpeer, hother⟩ := hosts_of_exchanged hhosts hpi
  refine ⟨hreached, hself, ⟨?_, ?_⟩, hother, hnet⟩
  · rw [Cluster.term, hpeer]
    exact h.term
  · rw [hpeer]
    rfl

/-- **One vote**: with it, the candidate has won, or it goes on with the others. -/
theorem Polled.turn (h : Polled conf i N log (p :: rest) c) (hi : i ∈ conf.members)
    (hfit : ∀ t k, Sendable (log ++ [⟨t, k, .noop⟩])) :
    Leads (machine conf) Unaided c fun c' =>
      (∃ k, Leading conf i N (log ++ [⟨N, k, .noop⟩]) c') ∨ Polled conf i N log rest c' := by
  obtain ⟨hpmem, hpi⟩ := (conf.mem_peers i hi p).mp (h.peers p List.mem_cons_self)
  have hnot : p ∉ rest := (List.nodup_cons.mp h.nodup).1
  refine (h.voted hi).mono ?_
  rintro c' ⟨hreached, hself, ⟨htermp, hlogp⟩, hother, hnet⟩
  have hhighest : c'.term i = N → ∀ j ∈ conf.members, c'.term j ≤ N := by
    intro hterm j hj
    by_cases hji : j = i
    · exact hji ▸ hterm.le
    by_cases hjp : j = p
    · exact hjp ▸ htermp.le
    · rw [Cluster.term, hother j hji hjp]
      exact h.highest j hj
  have hlogs : ∀ j ∈ conf.members, j ≠ i →
      (c'.hosts j).server.logEntries = (c.hosts j).server.logEntries := by
    intro j hj hji
    by_cases hjp : j = p
    · rw [hjp, hlogp]
    · rw [hother j hji hjp]
  split at hself
  · -- the majority is there
    have hserver : (c'.hosts i).server =
        { (c.hosts i).server.countVote.becomeLeader with effects := [] } := by
      rw [hself, Node.leave_server]
    obtain ⟨post, -, -, hrole, hterm⟩ := (c.hosts i).server.countVote.becomeLeader_eq
    have hterm' : c'.term i = N := by
      rw [Cluster.term, hserver]
      exact hterm.trans h.term
    have hlog : (c'.hosts i).server.logEntries =
        log ++ [⟨N, (c.hosts i).server.nextLogIndex, .noop⟩] := by
      rw [hserver, ← h.log, ← h.term]
      exact Server.becomeLeader_logEntries _
    refine Or.inl ⟨_, hreached, ?_, hterm', hlog, hhighest hterm', fun j hj => ?_⟩
    · rw [hserver]
      exact hrole
    · by_cases hji : j = i
      · rw [Short, hji, hlog]
        exact (hfit _ _).length_lt
      · rw [Short, hlogs j hj hji]
        exact h.short j hj
  · next hmaj =>
    have hserver : (c'.hosts i).server =
        { (c.hosts i).server.countVote with effects := [] } := by
      rw [hself, Node.leave_server]
    have hterm' : c'.term i = N := by
      rw [Cluster.term, hserver]
      exact h.term
    have hsame : SameLogs conf c c' := by
      intro j hj
      by_cases hji : j = i
      · rw [hji, hserver]
        rfl
      · exact hlogs j hj hji
    have hvotes : (c'.hosts i).server.votesReceived =
        (c.hosts i).server.votesReceived + 1 := by
      have hlt := conf.card_lt
      have hlen := conf.length_peers hi
      have hbound := h.votes
      rw [List.length_cons] at hbound
      rw [hserver]
      exact Nat.mod_eq_of_lt (by omega)
    refine Or.inr ⟨hreached, ?_, hterm', (hsame i hi).trans h.log, hhighest hterm',
      hsame.newest hi h.newest, hsame.short h.short, ?_, ?_, (List.nodup_cons.mp h.nodup).2,
      fun q hq => h.peers q (List.mem_cons_of_mem p hq), fun q hq => ?_, fun q hq => ?_⟩
    · rw [hserver]
      exact h.role
    · rw [hserver]
      exact Nat.not_le.mp hmaj
    · have hbound := h.votes
      rw [List.length_cons] at hbound
      rw [hvotes]
      omega
    · have hqi := ((conf.mem_peers i hi q).mp (h.peers q (List.mem_cons_of_mem p hq))).2
      have hqp : q ≠ p := fun heq => hnot (heq ▸ hq)
      rw [Cluster.term, hother q hqi hqp]
      exact h.later q (List.mem_cons_of_mem p hq)
    · have hqp : q ≠ p := fun heq => hnot (heq ▸ hq)
      rw [hself]
      exact hnet q hqp _ _ (h.requests q (List.mem_cons_of_mem p hq))

/-- **The candidate wins**: the votes of all peers are more than it needs. -/
theorem Polled.wins (h : Polled conf i N log rest c) (hi : i ∈ conf.members)
    (hfit : ∀ t k, Sendable (log ++ [⟨t, k, .noop⟩])) :
    Leads (machine conf) Unaided c fun c' => ∃ k, Leading conf i N (log ++ [⟨N, k, .noop⟩]) c' := by
  induction rest generalizing c with
  | nil =>
    have hmaj := h.undecided
    have hvotes := h.votes
    rw [Server.majority, (h.reached.config hi).2] at hmaj
    rw [List.length_nil] at hvotes
    omega
  | cons p rest ih =>
    refine (h.turn hi hfit).trans ?_
    rintro c' (hwon | hpolled)
    · exact .refl hwon
    · exact ih hpolled

/-! ## Recovery -/

/-- There is room for one more term; and a message has room for all of any log, with entries for
the given commands at its end. -/
structure Roomy (conf : Config) (commands : List Command) (c : Cluster) : Prop where
  terms : ∀ j ∈ conf.members, c.term j + 1 < 2 ^ 64
  logs : ∀ j ∈ conf.members, ∀ es, es.map LogEntry.command = commands →
    Sendable ((c.hosts j).server.logEntries ++ es)

/-- Room for more is room for less. -/
theorem Roomy.left {command : Command} (h : Roomy conf [.noop, command] c) :
    Roomy conf [.noop] c := by
  refine ⟨h.terms, fun j hj es hes => ?_⟩
  have hmore := h.logs j hj (es ++ [⟨0, 0, command⟩]) (by rw [List.map_append, hes]; rfl)
  rw [← List.append_assoc] at hmore
  exact hmore.of_sublist (List.sublist_append_left _ _)

theorem Roomy.sendable (h : Roomy conf [.noop] c) {j : ℕ} (hj : j ∈ conf.members) :
    Sendable (c.hosts j).server.logEntries :=
  (h.logs j hj [⟨0, 0, .noop⟩] rfl).of_sublist (List.sublist_append_left _ _)

theorem Roomy.short (h : Roomy conf [.noop] c) : ∀ j ∈ conf.members, c.Short j :=
  fun _ hj => (h.sendable hj).length_lt

/-- What entries take in a message depends on their commands. -/
theorem length_flatMap_entryBlob (es : List LogEntry) :
    (es.flatMap entryBlob).length =
      ((es.map LogEntry.command).map fun m => 29 + m.key.length + m.value.length).sum := by
  induction es with
  | nil => rfl
  | cons e es ih =>
    rw [List.flatMap_cons, List.length_append, ih, length_entryBlob, length_serializeLogEntry,
      List.map_cons, List.map_cons, List.sum_cons]
    omega

/-- `Roomy`, decided. -/
def hasRoom (members : Finset ℕ) (commands : List Command) (c : Cluster) : Bool :=
  decide ((∀ j ∈ members, c.term j + 1 < 2 ^ 64) ∧
    ∀ j ∈ members, 44 + ((c.hosts j).server.logEntries.flatMap entryBlob).length +
      (commands.map fun m => 29 + m.key.length + m.value.length).sum < 2 ^ 32)

theorem roomy_of_hasRoom {commands : List Command}
    (h : c.hasRoom conf.members commands = true) : Roomy conf commands c := by
  obtain ⟨hterms, hlogs⟩ := of_decide_eq_true h
  refine ⟨hterms, fun j hj es hes => ?_⟩
  rw [Sendable, List.flatMap_append, List.length_append, length_flatMap_entryBlob es, hes,
    ← Nat.add_assoc]
  exact hlogs j hj

/-- A leader that meets a later term gives up. -/
theorem Reached.deposes (h : Reached conf c) (hi : i ∈ conf.members) (hp : p ∈ conf.peers i)
    (hrole : (c.hosts i).server.role = .leader) (hroom : Roomy conf [.noop] c)
    (hlt : c.term i < c.term p) :
    Leads (machine conf) Unaided c fun c' => Reached conf c' ∧
      (c'.hosts i).server.role = .follower ∧ c'.term i = c.term p ∧
        SameLogs conf c c' ∧ ∀ j, j ≠ i → c'.hosts j = c.hosts j := by
  obtain ⟨tr, hrun⟩ := h
  obtain ⟨a, ha⟩ := refined hrun
  obtain ⟨hpmem, hpi⟩ := (conf.mem_peers i hi p).mp hp
  have hnext : (c.hosts i).server.nextIndex p ≤ (c.hosts i).server.logEntries.length + 1 := by
    rw [(ha.refines hi).log]
    exact (ha.standing hi).next hrole p ((ha.refines hi).peers ▸ hp)
  obtain ⟨args, hargs, hterm, -, -, -, hsub, -⟩ := Server.exists_appendEntriesArgs hrole hnext
  have hsize : (serializeAppendEntriesArgs args).length < 2 ^ 32 := by
    rw [length_serializeAppendEntriesArgs]
    exact (hroom.sendable hi).of_sublist hsub
  obtain ⟨r, hr, hlead⟩ := Reached.exchange ⟨tr, hrun⟩ hi hp (hroom.short i hi)
    (hroom.short p hpmem) hargs hsize
  have hold : args.term < (c.hosts p).server.metadata.currentTerm := hterm ▸ hlt
  rw [Server.handleAppendEntries, if_pos hold] at hr
  obtain rfl := Option.some.inj hr
  have hreply : (c.hosts i).server.handleAppendEntriesReply p args
      ⟨(c.hosts p).server.metadata.currentTerm, false⟩ =
        ((c.hosts i).server.reached p).stepDown (c.term p) := by
    rw [Server.handleAppendEntriesReply]
    exact if_pos hlt
  refine hlead.mono ?_
  rintro c' ⟨hreached, hhosts⟩
  have hclean : (c.hosts p).leave (c.hosts p).server = c.hosts p :=
    Node.flush_of_clean (ha.mirrored p hpmem).clean
  dsimp only at hhosts
  rw [hreply, hclean, Function.update_eq_self] at hhosts
  obtain ⟨hself, hother⟩ := hosts_of_update hhosts
  exact ⟨hreached, by rw [hself]; rfl, by rw [Cluster.term, hself]; rfl,
    sameLogs_of_update hhosts rfl, hother⟩

theorem peers_ne_nil (hcard : 1 < conf.members.card) (hi : i ∈ conf.members) :
    conf.peers i ≠ [] := by
  have hlen := conf.length_peers hi
  exact List.ne_nil_of_length_pos (by omega)

/-- **There can always be a leader** whose term nobody is beyond, with one of the logs that the
members have, or with one of them and a NOOP. -/
theorem Reached.leading (h : Reached conf c) (hcard : 1 < conf.members.card)
    (hroom : Roomy conf [.noop] c) :
    ∃ i ∈ conf.members, Leads (machine conf) Unaided c fun c' => ∃ N log, Leading conf i N log c' ∧
      (log = (c.hosts i).server.logEntries ∨
        ∃ k, log = (c.hosts i).server.logEntries ++ [⟨N, k, .noop⟩]) := by
  have hne : conf.members.Nonempty := Finset.card_pos.mp (by omega)
  obtain ⟨v, hv, hmax⟩ := conf.members.exists_max_image c.term hne
  by_cases hlead : ∃ i ∈ conf.members, (c.hosts i).server.role = .leader ∧ c.term i = c.term v
  · obtain ⟨i, hi, hrole, hterm⟩ := hlead
    exact ⟨i, hi, .refl ⟨_, _, ⟨h, hrole, rfl, rfl, fun j hj => hterm ▸ hmax j hj, hroom.short⟩,
      Or.inl rfl⟩⟩
  obtain ⟨i, hi, hnewest⟩ := conf.members.exists_max_image
    (fun j => (c.hosts j).server.newness) hne
  have hpeers := peers_ne_nil hcard hi
  have heligible : Leads (machine conf) Unaided c
      (Eligible conf i (c.term v) (c.hosts i).server.logEntries) := by
    by_cases hrole : (c.hosts i).server.role = .leader
    · have hlt : c.term i < c.term v :=
        lt_of_le_of_ne (hmax i hi) fun heq => hlead ⟨i, hi, hrole, heq⟩
      have hvi : v ≠ i := by
        rintro rfl
        exact lt_irrefl _ hlt
      refine (h.deposes hi ((conf.mem_peers i hi v).mpr ⟨hv, hvi⟩) hrole hroom hlt).mono ?_
      rintro c' ⟨hreached, hrole', hterm, hlogs, hother⟩
      refine ⟨hreached, by simp [hrole'], hlogs i hi, fun j hj => ?_, hlogs.newest hi hnewest,
        hlogs.short hroom.short⟩
      by_cases hji : j = i
      · exact hji ▸ hterm.le
      · rw [Cluster.term, hother j hji]
        exact hmax j hj
    · exact .refl ⟨h, hrole, rfl, hmax, hnewest, hroom.short⟩
  refine ⟨i, hi, heligible.trans fun c₁ h₁ => ?_⟩
  refine (h₁.stands hi hpeers (hroom.terms v hv)).trans fun c₂ h₂ => ?_
  refine (h₂.asks hi hpeers).trans fun c₃ h₃ => ?_
  refine (h₃.wins hi fun t k => hroom.logs i hi [⟨t, k, .noop⟩] rfl).mono ?_
  rintro c' ⟨k, hleading⟩
  exact ⟨_, _, hleading, Or.inr ⟨k, rfl⟩⟩

/-- **A cluster can always recover.**  Whatever has happened in an admissible run, two or more
members that have room for a term and for a NOOP can bring themselves to where one of them leads,
the others follow it, and all have one log, committed and applied.  Every step is a timer that runs
out, a request that is sent or a message that arrives: nobody crashes, nothing is lost, and no
client is served. -/
theorem recoverable {tr : List (ℕ × Node.Event)} (h : Run (machine conf) Admissible tr c)
    (hcard : 1 < conf.members.card) (hroom : Roomy conf [.noop] c) :
    ∃ i ∈ conf.members, Leads (machine conf) Unaided c (Settled conf i) := by
  obtain ⟨i, hi, hlead⟩ := Reached.leading ⟨tr, h⟩ hcard hroom
  refine ⟨i, hi, hlead.trans ?_⟩
  rintro c' ⟨N, log, hleading, hlog⟩
  refine hleading.settles hi (peers_ne_nil hcard hi) ?_
  rcases hlog with rfl | ⟨k, rfl⟩
  · exact hroom.sendable hi
  · exact hroom.logs i hi [⟨N, k, .noop⟩] rfl

/-- Node 1 takes a request as leader of term 1, which gets nowhere; node 2 takes another one as
leader of term 2; and node 3 stands in term 3, with an empty log. -/
def scattered : List Action :=
  campaign 1 2 1 0 0 ++ [.run 1 (.thread (.propose (.put [107] [118])))] ++
    campaign 2 3 2 0 0 ++ [.run 2 (.thread (.propose (.delete [107])))] ++
    [.run 3 (.thread .electionTimeout)]

theorem recoverable_three : ∃ tr c, Run (machine .three) Admissible tr c ∧
    (c.hosts 1).server.logEntries = [⟨1, 1, .noop⟩, ⟨1, 2, (Request.put [107] [118]).command⟩] ∧
    (c.hosts 2).server.logEntries = [⟨2, 1, .noop⟩, ⟨2, 2, (Request.delete [107]).command⟩] ∧
    (c.hosts 3).server.role = .candidate ∧ (c.hosts 3).server.logEntries = [] ∧
    ∃ i ∈ Config.three.members, Leads (machine .three) Unaided c (Settled .three i) := by
  obtain ⟨tr, c, hrun, h⟩ := Run.exists_of_exec admissible_of_admits (M := machine .three)
    (fun c _ => decide (((c.hosts 1).server.logEntries =
        [⟨1, 1, .noop⟩, ⟨1, 2, (Request.put [107] [118]).command⟩] ∧
      (c.hosts 2).server.logEntries =
        [⟨2, 1, .noop⟩, ⟨2, 2, (Request.delete [107]).command⟩] ∧
      (c.hosts 3).server.role = .candidate ∧ (c.hosts 3).server.logEntries = []) ∧
      c.hasRoom Config.three.members [.noop] = true))
    scattered (by decide +kernel)
  obtain ⟨⟨h1, h2, h3, h4⟩, hroom⟩ := of_decide_eq_true h
  exact ⟨tr, c, hrun, h1, h2, h3, h4, recoverable hrun (by decide) (roomy_of_hasRoom hroom)⟩

/-! ## Service -/

/-- A client of node `i` got a result for its request. -/
def GetsResult (i : ℕ) (request : Request) (tr : List (ℕ × Node.Event)) : Prop :=
  ∃ w answer s, (i, .output (.proposed w)) ∈ tr ∧ (i, .output (.answered w answer s)) ∈ tr ∧
    w.request = request ∧ answer.isResult = true

/-- A member that has not been stopped. -/
theorem Reached.running (h : Reached conf c) (hi : i ∈ conf.members) :
    (c.hosts i).server.running = true := by
  obtain ⟨tr, hrun⟩ := h
  obtain ⟨a, ha⟩ := refined hrun
  exact (ha.elections.settled i hi).tracked.running

/-- **A leader takes a request**: it answers at once, or the thread of the client waits. -/
theorem Leading.takes (h : Leading conf i N log c) (hi : i ∈ conf.members)
    (hp : p ∈ conf.peers i) {request : Request} (hfits : request.command.Fits)
    (hfit : ∀ t k, Sendable (log ++ [⟨t, k, request.command⟩])) :
    ∃ w tr c', Path (machine conf) Calm c tr c' ∧ (i, .output (.proposed w)) ∈ tr ∧
      w.request = request ∧ w.index = log.length + 1 ∧ Leading conf i N (log ++ [w.entry]) c' ∧
        (GetsResult i request tr ∨ w ∈ (c'.hosts i).waiting) := by
  have hshort := h.short i hi
  obtain ⟨hindexed, -⟩ := h.bounds hi hp
  rw [← h.log] at hindexed
  obtain ⟨w, s, hpropose, hrequest, hindex, hterm, hrole, hrunning, hcurrent, hlog⟩ :=
    Server.propose_leads h.role hindexed hshort request
  have hadm : c.Admissible (.run i (.thread (.propose request))) := by
    refine ⟨by simp, hshort, fun request' heq => ?_, by simp⟩
    obtain rfl := Input.propose.inj (Trigger.thread.inj heq)
    exact hfits
  -- the section ends with the thread's first look at its predicate
  obtain ⟨m, os, hm, hserver, hos, hend⟩ : ∃ m os,
      (c.hosts i).handle (.propose request) = some (m, os) ∧ m.server = s ∧
        .proposed w ∈ os ∧ ((.answered w (s.answer w) s ∈ os ∧ s.waitOver w = true) ∨
          w ∈ m.waiting) := by
    rw [Node.handle, hpropose]
    dsimp only
    rw [Node.settle]
    split
    · next hover => exact ⟨_, _, rfl, rfl, by simp, Or.inl ⟨by simp, hover⟩⟩
    · exact ⟨_, _, rfl, rfl, by simp, Or.inr (by simp)⟩
  obtain ⟨tr, c', hpath, hhosts, hout⟩ := exists_path_run hi hadm (fetch_thread rfl) hm
  obtain ⟨hself, hother⟩ := hosts_of_update hhosts
  have hserver' : (c'.hosts i).server = { s with effects := [] } := by
    rw [hself, ← hserver]
    rfl
  have hterm' : c'.term i = N := by
    rw [Cluster.term, hserver']
    exact hcurrent.trans h.term
  have hlog' : (c'.hosts i).server.logEntries = log ++ [w.entry] := by
    rw [hserver', ← h.log]
    exact hlog
  have hentry : w.entry = ⟨w.term, w.index, request.command⟩ := by rw [Waiter.entry, hrequest]
  refine ⟨w, tr, c', hpath, hout _ hos, hrequest, by rw [hindex, h.log],
    ⟨h.reached.path hpath, ?_, hterm', hlog', fun j hj => ?_, fun j hj => ?_⟩, ?_⟩
  · rw [hserver']
    exact hrole
  · by_cases hji : j = i
    · exact hji ▸ hterm'.le
    · rw [Cluster.term, hother j hji]
      exact h.highest j hj
  · by_cases hji : j = i
    · rw [Short, hji, hlog', hentry]
      exact (hfit _ _).length_lt
    · rw [Short, hother j hji]
      exact h.short j hj
  · rcases hend with ⟨hanswered, hover⟩ | hwait
    · have hresult := Server.isResult_of_waitOver (hrunning.trans (h.reached.running hi)) hrole
        hover
      exact Or.inl ⟨w, _, s, hout _ hos, hout _ hanswered, hrequest, hresult⟩
    · right
      rw [hself]
      exact hwait

/-- **The thread that waits answers**, when its entry is committed. -/
theorem Leading.answers (h : Leading conf i N log c) (hi : i ∈ conf.members) {w : Waiter}
    (hw : w ∈ (c.hosts i).waiting) (hle : w.index ≤ (c.hosts i).server.metadata.commitIndex) :
    ∃ tr c' answer s, Path (machine conf) Calm c tr c' ∧
      (i, .output (.answered w answer s)) ∈ tr ∧ answer.isResult = true := by
  have hover : (c.hosts i).server.waitOver w = true := by
    rw [Server.waitOver, decide_eq_true hle, Bool.or_true]
  have hresult := Server.isResult_of_waitOver (h.reached.running hi) h.role hover
  have hm : (c.hosts i).handle (.wake w false) = some
      ({ c.hosts i with waiting := (c.hosts i).waiting.erase w },
        [.answered w ((c.hosts i).server.answer w) (c.hosts i).server]) := by
    rw [Node.handle, if_pos ⟨hw, Or.inl hover⟩]
  obtain ⟨tr, c', hpath, -, hout⟩ := exists_path_run hi
    ⟨by simp, h.short i hi, by simp, by simp⟩ (fetch_thread rfl) hm
  exact ⟨tr, c', _, _, hpath, hout _ List.mem_cons_self, hresult⟩

/-- **A cluster can always serve a client.**  Whatever has happened, two or more members that have
room for a term, a NOOP and a request can get one of them to take the request and to answer it with
a result. -/
theorem available {tr : List (ℕ × Node.Event)} (h : Run (machine conf) Admissible tr c)
    (hcard : 1 < conf.members.card) {request : Request} (hfits : request.command.Fits)
    (hroom : Roomy conf [.noop, request.command] c) :
    ∃ i ∈ conf.members, ∃ tr' c', Path (machine conf) Calm c tr' c' ∧
      GetsResult i request tr' := by
  obtain ⟨i, hi, tr₁, c₁, hpath₁, N, log, hlead₁, hlog⟩ :=
    Reached.leading ⟨tr, h⟩ hcard hroom.left
  obtain ⟨p, hp⟩ := List.exists_mem_of_ne_nil _ (peers_ne_nil hcard hi)
  have hfit : ∀ t k, Sendable (log ++ [⟨t, k, request.command⟩]) := by
    intro t k
    rcases hlog with rfl | ⟨n, rfl⟩
    · refine (hroom.logs i hi [⟨0, 0, .noop⟩, ⟨t, k, request.command⟩] rfl).of_sublist ?_
      exact (List.Sublist.refl _).append (List.sublist_cons_self _ _)
    · rw [List.append_assoc]
      exact hroom.logs i hi [⟨N, n, .noop⟩, ⟨t, k, request.command⟩] rfl
  obtain ⟨w, tr₂, c₂, hpath₂, hproposed, hrequest, hindex, hlead₂, hend⟩ :=
    hlead₁.takes hi hp hfits hfit
  have hcalm₁ : Path (machine conf) Calm c tr₁ c₁ := hpath₁.mono fun _ _ => Unaided.calm
  refine ⟨i, hi, ?_⟩
  rcases hend with hdone | hwait
  · refine ⟨_, c₂, hcalm₁.trans hpath₂, ?_⟩
    obtain ⟨w', answer, s, hw', hanswer, hrest⟩ := hdone
    exact ⟨w', answer, s, List.mem_append_right _ hw', List.mem_append_right _ hanswer, hrest⟩
  have hfit₂ : Sendable (log ++ [w.entry]) := by
    rw [Waiter.entry, hrequest]
    exact hfit _ _
  obtain ⟨tr₃, c₃, hpath₃, hlead₃, hwaiting, -, hcommit⟩ :=
    hlead₂.commits hi (List.ne_nil_of_mem hp) hfit₂
  have hle : w.index ≤ (c₃.hosts i).server.metadata.commitIndex := by
    rw [hindex]
    rwa [List.length_append, List.length_singleton] at hcommit
  obtain ⟨tr₄, c₄, answer, s, hpath₄, hanswered, hresult⟩ :=
    hlead₃.answers hi (hwaiting ▸ hwait) hle
  have hcalm₃ : Path (machine conf) Calm c₂ tr₃ c₃ := hpath₃.mono fun _ _ => Unaided.calm
  refine ⟨_, c₄, ((hcalm₁.trans hpath₂).trans hcalm₃).trans hpath₄, w, answer, s, ?_,
    List.mem_append_right _ hanswered, hrequest, hresult⟩
  exact List.mem_append_left _ (List.mem_append_left _ (List.mem_append_right _ hproposed))

/-- A client asks for a value in the same situation. -/
theorem available_three : ∃ tr c, Run (machine .three) Admissible tr c ∧
    (c.hosts 1).server.role = .leader ∧ (c.hosts 2).server.role = .leader ∧
    (c.hosts 3).server.role = .candidate ∧
    ∃ i ∈ Config.three.members, ∃ tr' c', Path (machine .three) Calm c tr' c' ∧
      GetsResult i (.get [107]) tr' := by
  obtain ⟨tr, c, hrun, h⟩ := Run.exists_of_exec admissible_of_admits (M := machine .three)
    (fun c _ => decide (((c.hosts 1).server.role = .leader ∧ (c.hosts 2).server.role = .leader ∧
      (c.hosts 3).server.role = .candidate) ∧
      c.hasRoom Config.three.members [.noop, (Request.get [107]).command] = true))
    scattered (by decide +kernel)
  obtain ⟨⟨h1, h2, h3⟩, hroom⟩ := of_decide_eq_true h
  exact ⟨tr, c, hrun, h1, h2, h3,
    available hrun (by decide) (by decide) (roomy_of_hasRoom hroom)⟩

end Cluster

end RaftConsensus
