import RaftConsensus.DiskCommit
import RaftConsensus.ElectionSafety
import RaftConsensus.Protocol.Locality

/-!
# The cluster refines the protocol

`Sim` relates a cluster to a state of the abstract protocol.  The protocol keeps the
history that the cluster forgets, and `Sim` says what the memory of a server, the effects
in the trace and the messages in the network mean in terms of that history:

* `Server.Refines`: term, vote, log and commit index of a server are those of its node, and
  its state machine is the replay of the committed prefix.
* `Server.Standing`: what a candidate and a leader may rely on.
* `Effect.Explained`: what an effect says has happened in the protocol.
* `AppendEntriesArgs.Payload`: the entries of a message are the rest of a log that the
  leader of its term has had.

The relation is about servers and not about nodes, so that it can be kept in the middle of
a section, where one server has gone ahead and nothing is written or sent yet.  A section is
taken through it one helper of the source at a time, and each of them is a few steps of the
protocol.
-/

namespace RaftConsensus

open Protocol (Reachable Confined Grows LogInv SafetyInv UpToDate lastTerm)

instance : Protocol.Termed LogEntry := ⟨LogEntry.term⟩

/-- A state of the protocol whose nodes are named by their ids. -/
abbrev Abstract := Protocol.State ℕ LogEntry

/-! ## What effects and messages mean -/

/-- What an effect of node `i` says is so. -/
def Effect.Explained (a : Abstract) (i : ℕ) : Effect → Prop
  | votedFor c t => a.voted i t = some c
  | candidate t => a.voted i t = some i
  | becomeLeader t log => a.leader t = some i ∧ a.electLog t = log
  | advanceCommit t n log => (t, n) ∈ a.commits ∧ log.take n = (a.leaderLog t).take n
  | followCommit n => ∃ t m, (t, m) ∈ a.commits ∧ n ≤ m
  | applied index command => ∃ t n e, (t, n) ∈ a.commits ∧ 0 < index ∧ index ≤ n ∧
      (a.leaderLog t)[index - 1]? = some e ∧ e.command = command
  | _ => True

/-- The arguments carry the rest of `L`, a log that the leader of their term has had. -/
structure AppendEntriesArgs.Payload (a : Abstract) (args : AppendEntriesArgs)
    (L : List LogEntry) : Prop where
  isPrefix : L <+: a.leaderLog args.term
  prev_le : args.prevLogIndex ≤ L.length
  prevTerm : args.prevLogIndex ≠ 0 →
    L[args.prevLogIndex - 1]?.map LogEntry.term = some args.prevLogTerm
  entries : args.entries = L.drop args.prevLogIndex
  commit : args.leaderCommit = 0 ∨ ∃ t m, (t, m) ∈ a.commits ∧ t ≤ args.term ∧
    args.leaderCommit ≤ m ∧ L.take args.leaderCommit = (a.leaderLog t).take args.leaderCommit

/-- What a message says is so. -/
def Packet.Truthful (a : Abstract) : Packet → Prop
  | appendEntries _ _ _ args => ∃ L, args.Payload a L
  | appendEntriesReply _ _ callee args reply => reply.success = true →
      args.prevLogIndex + args.entries.length ≤ a.acked callee args.term
  | _ => True

/-! ## The relation -/

/-- The memory of member `i` is the state of node `i`. -/
structure Server.Refines (conf : Config) (a : Abstract) (i : ℕ) (s : Server) : Prop where
  nodeId : s.nodeId = i
  peers : s.peers = conf.peers i
  term : s.metadata.currentTerm = a.term i
  vote : a.voted i (a.term i) =
    if s.metadata.votedFor = 0 then none else some s.metadata.votedFor
  log : s.logEntries = a.log i
  commit : s.metadata.commitIndex = a.commit i
  lastApplied : s.metadata.lastApplied = a.commit i
  stateMachine : s.stateMachine = .replay ((a.log i).take (a.commit i))

/-- What a candidate and a leader may rely on. -/
structure Server.Standing (a : Abstract) (net : List Packet) (i : ℕ) (s : Server) : Prop where
  unelected : s.role = .candidate → a.leader (a.term i) ≠ some i
  upToDate : s.role = .candidate → ∀ v, a.voted v (a.term i) = some i →
    UpToDate (a.log i) (a.voteLog v (a.term i))
  requests : s.role = .candidate → ∀ b v args, .requestVote i b v args ∈ net →
    args.term = a.term i →
      args.lastLogIndex = (a.log i).length ∧ args.lastLogTerm = lastTerm (a.log i)
  leads : s.role = .leader → a.leader (a.term i) = some i
  matched : s.role = .leader → ∀ p ∈ s.peers, s.matchIndex p ≤ a.acked p (a.term i)
  next : s.role = .leader → ∀ p ∈ s.peers, s.nextIndex p ≤ (a.log i).length + 1

/-- All that is known of member `i`: `past` are its effects before the section that it is in,
and `files` its files then. -/
structure Server.Accounted (conf : Config) (a : Abstract) (net : List Packet) (i : ℕ)
    (past : List Effect) (files : Files) (s : Server) : Prop where
  refines : s.Refines conf a i
  standing : s.Standing a net i
  explained : ∀ e ∈ past ++ s.effects, e.Explained a i
  disk : diskCommit (perform s.effects files) ≤ s.metadata.commitIndex

/-- **The simulation relation.** -/
structure Sim (conf : Config) (past : ℕ → List Effect) (files : ℕ → Files) (net : List Packet)
    (servers : ℕ → Server) (a : Abstract) : Prop where
  reachable : Reachable conf.Majority a
  accounted : ∀ i ∈ conf.members, (servers i).Accounted conf a net i (past i) (files i)
  packets : ∀ p ∈ net, p.Truthful a
  indexed : ∀ t, Indexed (a.leaderLog t)
  short : ∀ t, (a.leaderLog t).length < 2 ^ 64
  candidates : ∀ {v t c}, a.voted v t = some c → t ≤ a.term c
  marked : ∀ {t n}, (t, n) ∈ a.commits → ∃ i ∈ conf.members, ∃ log,
    .advanceCommit t n log ∈ past i ++ (servers i).effects

/-! ## History grows -/

section Grows

variable {a a' : Abstract} {conf : Config}

/-- What was committed is in the log of its term. -/
theorem commit_le_leaderLog (hs : SafetyInv conf.Majority a) {t n : ℕ}
    (hc : (t, n) ∈ a.commits) : n ≤ (a.leaderLog t).length := by
  obtain ⟨m, e, rfl, hm, -⟩ := hs.committed hc
  exact (List.getElem?_eq_some_iff.mp hm).1

theorem Effect.Explained.mono {e : Effect} {i : ℕ} (h : e.Explained a i) (hg : Grows a a')
    (hs : SafetyInv conf.Majority a) : e.Explained a' i := by
  rcases e with _ | _ | _ | _ | _ | _ | ⟨c, t⟩ | t | ⟨t, log⟩ | ⟨t, n, log⟩ | n | ⟨index, command⟩
  case votedFor => exact (hg.voted h).1
  case candidate => exact (hg.voted h).1
  case becomeLeader => exact ⟨(hg.leader h.1).1, (hg.leader h.1).2.trans h.2⟩
  case advanceCommit =>
    refine ⟨hg.commits h.1, ?_⟩
    rw [hg.take_leaderLog (commit_le_leaderLog hs h.1)]
    exact h.2
  case followCommit =>
    obtain ⟨t, m, hc, hn⟩ := h
    exact ⟨t, m, hg.commits hc, hn⟩
  case applied =>
    obtain ⟨t, n, e, hc, hpos, hle, he, hcmd⟩ := h
    exact ⟨t, n, e, hg.commits hc, hpos, hle, hg.getElem?_leaderLog he, hcmd⟩
  all_goals trivial

theorem AppendEntriesArgs.Payload.mono {args : AppendEntriesArgs} {L : List LogEntry}
    (h : args.Payload a L) (hg : Grows a a') (hs : SafetyInv conf.Majority a) :
    args.Payload a' L where
  isPrefix := h.isPrefix.trans (hg.leaderLog _)
  prev_le := h.prev_le
  prevTerm := h.prevTerm
  entries := h.entries
  commit := by
    rcases h.commit with h0 | ⟨t, m, hc, ht, hm, heq⟩
    · exact Or.inl h0
    · refine Or.inr ⟨t, m, hg.commits hc, ht, hm, ?_⟩
      rw [hg.take_leaderLog (hm.trans (commit_le_leaderLog hs hc)), heq]

theorem Packet.Truthful.mono {p : Packet} (h : p.Truthful a) (hg : Grows a a')
    (hs : SafetyInv conf.Majority a) : p.Truthful a' := by
  rcases p with _ | _ | ⟨caller, b, callee, args⟩ | ⟨caller, b, callee, args, reply⟩
  · trivial
  · trivial
  · obtain ⟨L, hL⟩ := h
    exact ⟨L, hL.mono hg hs⟩
  · exact fun hsuccess => (h hsuccess).trans (hg.acked _ _)

end Grows

/-! ## Members that do not move -/

section Confined

variable {conf : Config} {a a' : Abstract} {net : List Packet} {i j : ℕ} {past : List Effect}
  {files : Files} {s : Server}

theorem Server.Refines.confined (h : s.Refines conf a j) (hc : Confined i a a') (hj : j ≠ i) :
    s.Refines conf a' j where
  nodeId := h.nodeId
  peers := h.peers
  term := h.term.trans (hc.term j hj).symm
  vote := by rw [hc.voted j hj, hc.term j hj, h.vote]
  log := h.log.trans (hc.log j hj).symm
  commit := h.commit.trans (hc.commit j hj).symm
  lastApplied := h.lastApplied.trans (hc.commit j hj).symm
  stateMachine := by rw [hc.log j hj, hc.commit j hj, h.stateMachine]

/-- Another candidate may have got the vote of node `i`. -/
theorem Server.Standing.confined (h : s.Standing a net j) (hc : Confined i a a') (hj : j ≠ i)
    (hvote : s.role = .candidate → a'.voted i (a.term j) = some j →
      a.voted i (a.term j) = some j ∨ UpToDate (a.log j) (a'.voteLog i (a.term j))) :
    s.Standing a' net j where
  unelected hr hl := by
    rw [hc.term j hj] at hl
    exact h.unelected hr (hc.leader _ j hj hl)
  upToDate hr v hv := by
    rw [hc.term j hj] at hv ⊢
    rw [hc.log j hj]
    have hold : a.voted v (a.term j) = some j →
        UpToDate (a.log j) (a'.voteLog v (a.term j)) := by
      intro hv
      rw [(hc.grows.voted hv).2]
      exact h.upToDate hr v hv
    by_cases hvi : v = i
    · subst hvi
      exact (hvote hr hv).elim hold id
    · rw [hc.voted v hvi] at hv
      exact hold hv
  requests hr b v args hp ht := by
    rw [hc.term j hj] at ht
    rw [hc.log j hj]
    exact h.requests hr b v args hp ht
  leads hr := by
    rw [hc.term j hj]
    exact (hc.grows.leader (h.leads hr)).1
  matched hr p hp := by
    rw [hc.term j hj]
    exact (h.matched hr p hp).trans (hc.grows.acked _ _)
  next hr p hp := by
    rw [hc.log j hj]
    exact h.next hr p hp

theorem Server.Accounted.confined (h : s.Accounted conf a net j past files)
    (hs : SafetyInv conf.Majority a) (hc : Confined i a a') (hj : j ≠ i)
    (hvote : s.role = .candidate → a'.voted i (a.term j) = some j →
      a.voted i (a.term j) = some j ∨ UpToDate (a.log j) (a'.voteLog i (a.term j))) :
    s.Accounted conf a' net j past files where
  refines := h.refines.confined hc hj
  standing := h.standing.confined hc hj hvote
  explained e he := (h.explained e he).mono hc.grows hs
  disk := h.disk

end Confined

/-! ## One member moves -/

section Moves

variable {conf : Config} {past : ℕ → List Effect} {files : ℕ → Files} {net : List Packet}
  {servers : ℕ → Server} {a a' : Abstract} {i : ℕ} {s s' : Server}

theorem Sim.logInv (h : Sim conf past files net servers a) : LogInv a := h.reachable.logInv

theorem Sim.safetyInv (h : Sim conf past files net servers a) : SafetyInv conf.Majority a :=
  h.reachable.safetyInv fun _ _ => conf.majority_inter

/-- Every log is indexed, as the log of each term is. -/
theorem Sim.indexed_log (h : Sim conf past files net servers a) {l : List LogEntry}
    (hl : Protocol.Matched a l) : Indexed l := by
  intro k e hk
  have hlt := (List.getElem?_eq_some_iff.mp hk).1
  refine h.indexed e.term k e ?_
  obtain ⟨r, hr⟩ := hl k e hk
  have hr' : l.take (k + 1) ++ r = a.leaderLog e.term := hr
  rw [← hr', List.getElem?_append_left (by rw [List.length_take]; omega),
    List.getElem?_take_of_lt (Nat.lt_succ_self k), hk]

/-- A commit index is at most the length of the log. -/
theorem Sim.commit_le_log (h : Sim conf past files net servers a) (i : ℕ) :
    a.commit i ≤ (a.log i).length := by
  rcases h.safetyInv.commit_le i with h0 | ⟨t, m, hc, -, hm, heq⟩
  · rw [h0]
    exact Nat.zero_le _
  · have hlen := congrArg List.length heq
    have := commit_le_leaderLog h.safetyInv hc
    rw [List.length_take, List.length_take] at hlen
    omega

/-- Matched logs match each other. -/
theorem matching_of_matched {l l' : List LogEntry} (hl : Protocol.Matched a l)
    (hl' : Protocol.Matched a l') : Matching l l' :=
  fun _ _ _ hk hk' ht => hl.take_eq hl' hk hk' ht

/-- From `a`, node `i` alone gets to where the server `s` refines it. -/
def Simulated (conf : Config) (past : ℕ → List Effect) (files : ℕ → Files) (net : List Packet)
    (servers : ℕ → Server) (i : ℕ) (a : Abstract) (s : Server) : Prop :=
  ∃ a', Confined i a a' ∧ Sim conf past files net (Function.update servers i s) a'

theorem Sim.simulated (h : Sim conf past files net (Function.update servers i s) a) :
    Simulated conf past files net servers i a s := ⟨a, Confined.refl i a, h⟩

theorem Simulated.trans (h : Simulated conf past files net servers i a s)
    (h' : ∀ {b}, Sim conf past files net (Function.update servers i s) b →
      Simulated conf past files net servers i b s') :
    Simulated conf past files net servers i a s' := by
  obtain ⟨b, hb, hs⟩ := h
  obtain ⟨c, hc, hs'⟩ := h' hs
  exact ⟨c, hb.trans hc, hs'⟩

theorem Sim.accounted_self (h : Sim conf past files net (Function.update servers i s) a)
    (hi : i ∈ conf.members) : s.Accounted conf a net i (past i) (files i) := by
  simpa using h.accounted i hi

theorem Sim.refines (h : Sim conf past files net (Function.update servers i s) a)
    (hi : i ∈ conf.members) : s.Refines conf a i := (h.accounted_self hi).refines

theorem Sim.standing (h : Sim conf past files net (Function.update servers i s) a)
    (hi : i ∈ conf.members) : s.Standing a net i := (h.accounted_self hi).standing

/-- **One member moves.**  The rest of the relation survives if a new vote goes to a log that
deserves it, new entries are indexed, and a new commit is marked. -/
theorem Sim.move_to (h : Sim conf past files net (Function.update servers i s) a)
    (hi : i ∈ conf.members) (hr : Reachable conf.Majority a') (hc : Confined i a a')
    (hself : s'.Accounted conf a' net i (past i) (files i)) (heff : s.effects ⊆ s'.effects)
    (hvote : ∀ j ∈ conf.members, j ≠ i → (servers j).role = .candidate →
      a'.voted i (a.term j) = some j →
        a.voted i (a.term j) = some j ∨ UpToDate (a.log j) (a'.voteLog i (a.term j)))
    (hlogs : ∀ t, Indexed (a'.leaderLog t) ∧ (a'.leaderLog t).length < 2 ^ 64)
    (hcand : ∀ {t c}, a'.voted i t = some c → a.voted i t = some c ∨ t ≤ a'.term c)
    (hmark : ∀ {t n}, (t, n) ∈ a'.commits → (t, n) ∈ a.commits ∨
      ∃ log, .advanceCommit t n log ∈ s'.effects) :
    Sim conf past files net (Function.update servers i s') a' := by
  refine ⟨hr, fun j hj => ?_, fun p hp => (h.packets p hp).mono hc.grows h.safetyInv,
    fun t => (hlogs t).1, fun t => (hlogs t).2, fun {v t c} hv => ?_, fun {t n} hn => ?_⟩
  · by_cases hji : j = i
    · subst hji
      simpa using hself
    · have hold := h.accounted j hj
      rw [Function.update_of_ne hji] at hold ⊢
      exact hold.confined h.safetyInv hc hji (hvote j hj hji)
  · by_cases hvi : v = i
    · subst hvi
      rcases hcand hv with hv | hle
      · exact (h.candidates hv).trans (hc.grows.term c)
      · exact hle
    · rw [hc.voted v hvi] at hv
      exact (h.candidates hv).trans (hc.grows.term c)
  · rcases hmark hn with hn | ⟨log, hlog⟩
    · obtain ⟨j, hj, log, hlog⟩ := h.marked hn
      refine ⟨j, hj, log, ?_⟩
      by_cases hji : j = i
      · subst hji
        rw [Function.update_self] at hlog ⊢
        rcases List.mem_append.mp hlog with hlog | hlog
        · exact List.mem_append_left _ hlog
        · exact List.mem_append_right _ (heff hlog)
      · rwa [Function.update_of_ne hji] at hlog ⊢
    · refine ⟨i, hi, log, ?_⟩
      rw [Function.update_self]
      exact List.mem_append_right _ hlog

theorem Sim.move (h : Sim conf past files net (Function.update servers i s) a)
    (hi : i ∈ conf.members) (hr : Reachable conf.Majority a') (hc : Confined i a a')
    (hself : s'.Accounted conf a' net i (past i) (files i)) (heff : s.effects ⊆ s'.effects)
    (hvote : ∀ j ∈ conf.members, j ≠ i → (servers j).role = .candidate →
      a'.voted i (a.term j) = some j →
        a.voted i (a.term j) = some j ∨ UpToDate (a.log j) (a'.voteLog i (a.term j)))
    (hlogs : ∀ t, Indexed (a'.leaderLog t) ∧ (a'.leaderLog t).length < 2 ^ 64)
    (hcand : ∀ {t c}, a'.voted i t = some c → a.voted i t = some c ∨ t ≤ a'.term c)
    (hmark : ∀ {t n}, (t, n) ∈ a'.commits → (t, n) ∈ a.commits ∨
      ∃ log, .advanceCommit t n log ∈ s'.effects) :
    Simulated conf past files net servers i a s' :=
  ⟨a', hc, h.move_to hi hr hc hself heff hvote hlogs hcand hmark⟩

/-- One member moves, and votes, leader logs and commits are as before. -/
theorem Sim.move_of_eq (h : Sim conf past files net (Function.update servers i s) a)
    (hi : i ∈ conf.members) (hr : Reachable conf.Majority a') (hc : Confined i a a')
    (hself : s'.Accounted conf a' net i (past i) (files i)) (heff : s.effects ⊆ s'.effects)
    (hvoted : a'.voted = a.voted) (hlogs : a'.leaderLog = a.leaderLog)
    (hcommits : a'.commits = a.commits) : Simulated conf past files net servers i a s' := by
  refine h.move hi hr hc hself heff (fun j _ _ _ hv => ?_) (fun t => ?_) (fun hv => ?_)
    fun hn => ?_
  · rw [hvoted] at hv
    exact Or.inl hv
  · rw [hlogs]
    exact ⟨h.indexed t, h.short t⟩
  · rw [hvoted] at hv
    exact Or.inl hv
  · rw [hcommits] at hn
    exact Or.inl hn

end Moves

end RaftConsensus
