import RaftConsensus.Holdings
import RaftConsensus.Origins

/-!
# The shape of a log

A log is a row of blocks, one for each term that left entries in it, in the order of the terms.
A block begins with the NOOP of the leader of its term: that is the entry with which
`advanceCommit` gets to commit what earlier leaders have left.

* `Node.handle_won`: what the winner of an election has in its log.
* `Cluster.Opens`: the log of a term starts with the log that won, and the NOOP.
* `Cluster.terms_begin_with_noop`: so does every log with an entry of this term.
-/

namespace RaftConsensus

open Protocol (Grows)

/-! ## The winner -/

/-- What a server has that has just won: its old log, and the NOOP of its term. -/
structure Server.Won (s s' : Server) (t : ℕ) (log : List LogEntry) : Prop where
  role : s'.role = .leader
  term : s'.metadata.currentTerm = t
  old : log = s.logEntries
  logEntries : s'.logEntries = log ++ [⟨t, s.nextLogIndex, .noop⟩]

theorem Server.becomeLeader_won {s : Server} {t : ℕ} {log : List LogEntry}
    (hquiet : .becomeLeader t log ∉ s.effects)
    (hmark : .becomeLeader t log ∈ s.becomeLeader.effects) : s.Won s.becomeLeader t log := by
  obtain ⟨post, heff, hpost, hrole, hterm⟩ := s.becomeLeader_eq
  obtain ⟨rfl, rfl⟩ : t = s.metadata.currentTerm ∧ log = s.logEntries := by
    rw [heff] at hmark
    rcases List.mem_append.mp hmark with hmem | hmem
    · exact absurd hmem hquiet
    · rcases List.mem_cons.mp hmem with heq | hmem
      · exact Effect.becomeLeader.inj heq
      · exact absurd hmem (hpost t log)
  exact ⟨hrole, hterm, rfl, s.becomeLeader_logEntries⟩

/-- **A section that enters `becomeLeader`** leaves a leader with one entry more. -/
theorem Node.handle_won {n m : Node} {x : Input} {os : List Output}
    (h : n.handle x = some (m, os)) (hclean : n.server.effects = []) {t : ℕ} {log : List LogEntry}
    (hmark : .becomeLeader t log ∈ m.server.effects) : n.server.Won m.server t log := by
  have hno : .becomeLeader t log ∉ n.server.effects := by simp [hclean]
  cases handle_turn h with
  | quiet hq hcamp => exact absurd (hq.mark hmark) hno
  | candidacy hx hrole hterm hvotes hcand hq => exact absurd (hq hmark) hno
  | counted hx hgranted hrole hterm heq =>
    rw [show m = _ from heq] at hmark
    exact absurd hmark hno
  | elected pre post heff hpre hpost hrole hwin =>
    dsimp only at hrole hwin
    rcases hwin with ⟨hone, -, -, rfl⟩ | ⟨reply, rfl, -, hcand, -⟩
    · cases handle_section h with
      | electionTimeout r hr =>
        cases Server.electionTimeout_way hr with
        | alone hfree hmaj =>
          have hquiet : .becomeLeader t log ∉ n.server.becomeCandidate.effects := by
            simp [Server.becomeCandidate, Server.persistMetaData, Server.emit, hclean]
          have hwon := Server.becomeLeader_won hquiet hmark
          exact ⟨hwon.role, hwon.term, hwon.old, hwon.logEntries⟩
        | campaigns => exact absurd hrole (by simp [Server.becomeCandidate, Server.persistMetaData,
            Server.emit])
    · cases handle_section h with
      | requestVoteReply u reply =>
        generalize hs' : n.server.handleRequestVoteReply n.server.metadata.currentTerm reply = s'
          at hmark hrole ⊢
        cases Server.handleRequestVoteReply_way hs' with
        | stepsDown => exact absurd hrole (by simp [Server.stepDown, Server.persistMetaData,
            Server.emit])
        | ignored | counted => exact absurd (hcand.symm.trans hrole) (by simp)
        | won =>
          have hwon := Server.becomeLeader_won (s := n.server.countVote) hno hmark
          exact ⟨hwon.role, hwon.term, hwon.old, hwon.logEntries⟩

namespace Cluster

variable {conf : Config} {c c' : Cluster} {tr evs : List (ℕ × Node.Event)} {a a' : Abstract}

/-! ## Blocks -/

/-- **The invariant**: the log of a term starts with the log that has won it, and the NOOP. -/
def Opens (tr : List (ℕ × Node.Event)) (a : Abstract) : Prop :=
  ∀ {i t log}, (i, .effect (.becomeLeader t log)) ∈ tr →
    log ++ [⟨t, log.length + 1, .noop⟩] <+: a.leaderLog t

/-- The winner of a section has all of the log of its term. -/
theorem Refined.opened (h : Refined conf tr c a) (h' : Refined conf (tr ++ evs) c' a') {i : ℕ}
    (hi : i ∈ conf.members) (hlen : (c.hosts i).server.logEntries.length + 1 < 2 ^ 64) {x : Input}
    {m : Node} {os : List Output} (hm : (c.hosts i).handle x = some (m, os))
    (hself : (c'.hosts i).server = { m.server with effects := [] }) {t : ℕ} {log : List LogEntry}
    (hmark : .becomeLeader t log ∈ m.server.effects) :
    log ++ [⟨t, log.length + 1, .noop⟩] = a'.leaderLog t := by
  have hwon := Node.handle_won hm (h.mirrored i hi).clean hmark
  have hindexed := h.sim.indexed_log (h.sim.logInv.log_matched i)
  rw [← (h.refines hi).log] at hindexed
  have hindex : (c.hosts i).server.nextLogIndex = log.length + 1 := by
    rw [Server.nextLogIndex, hindexed.getLastLogIndex, hwon.old, Nat.mod_eq_of_lt hlen]
  have href := h'.refines hi
  have hst := h'.standing hi
  rw [hself] at href hst
  have hterm : a'.term i = t := href.term.symm.trans hwon.term
  have hlead := h'.sim.logInv.leader_log i (hst.leads hwon.role)
  rw [← hterm, ← hlead, ← href.log, hterm, ← hindex]
  exact hwon.logEntries.symm

theorem opens (h : Run (machine conf) Admissible tr c) :
    ∃ a, Refined conf tr c a ∧ Opens tr a := by
  refine h.invariant (I := fun tr c => ∃ a, Refined conf tr c a ∧ Opens tr a)
    ⟨_, refined_initial conf, fun hmem => absurd hmem List.not_mem_nil⟩ ?_
  rintro tr c x c' evs - ⟨a, ha, hopen⟩ hadm hs
  obtain ⟨a', hg, -, ha'⟩ := ha.step hadm hs
  refine ⟨a', ha', fun {i t log} hmark => ?_⟩
  rcases List.mem_append.mp hmark with hmark | hmark
  · exact (hopen hmark).trans (hg.leaderLog t)
  cases step_moves hs with
  | run j g x net m os hi hfetch hm =>
    obtain ⟨rfl, hmem⟩ := mem_tag.mp hmark
    have hmem : .becomeLeader t log ∈ m.server.effects := by simpa using hmem
    have hopened := ha.opened ha' hi hadm.2.1 hm (by
      dsimp only
      rw [Function.update_self]
      rfl) hmem
    rw [hopened]
  | crash j retries hi =>
    obtain ⟨rfl, hmem⟩ := mem_tag.mp hmark
    exact absurd (Node.isBoot_restart (by simpa using hmem)) id
  | crashIn => exact absurd hadm id
  | lose => exact absurd hmark List.not_mem_nil

/-- **Term `t` begins in `l`** as it began for its winner: with the log that won, and the NOOP. -/
def Begins (tr : List (ℕ × Node.Event)) (t : ℕ) (l : List LogEntry) : Prop :=
  ∃ i log, (i, .effect (.becomeLeader t log)) ∈ tr ∧ (∀ e ∈ log, e.term < t) ∧
    log ++ [⟨t, log.length + 1, .noop⟩] <+: l

/-- A log with an entry of term `t` has the beginning of `t`. -/
theorem Refined.begins (h : Refined conf tr c a) (hrun : Run (machine conf) Admissible tr c)
    (hopen : Opens tr a) {i t : ℕ} {log l : List LogEntry}
    (hwon : (i, .effect (.becomeLeader t log)) ∈ tr) (hl : l <+: a.leaderLog t) {e : LogEntry}
    (he : e ∈ l) (ht : e.term = t) : Begins tr t l := by
  have hinv := h.sim.logInv
  have hlog : a.electLog t = log := (h.explained_mem hrun hwon).2
  have hold : ∀ x ∈ log, x.term < t := fun x hx => hinv.elect_term (hlog ▸ hx)
  obtain ⟨k, hk⟩ := List.mem_iff_getElem?.mp he
  have hpre : log <+: l := hlog ▸ hinv.electLog_prefix_of_term hl hk ht
  refine ⟨i, log, hwon, hold, List.prefix_of_prefix_length_le (hopen hwon) hl ?_⟩
  rw [List.length_append, List.length_singleton]
  by_contra hshort
  -- otherwise the entry would be in the log that won
  have heq : log = l := hpre.eq_of_length_le (by omega)
  exact absurd (hold e (heq ▸ he)) (by omega)

/-- **Every term begins with a NOOP.**  A log with an entry of some term, in memory or on disk,
starts with the log that won this term, followed by the winner's NOOP; and so does the log of a
leader, for its own term. -/
theorem terms_begin_with_noop (h : Run (machine conf) Admissible tr c) {i : ℕ}
    (hi : i ∈ conf.members) {l : List LogEntry} (hl : c.IsLog i l) :
    (∀ e ∈ l, e.term ≤ c.term i ∧ Begins tr e.term l) ∧
      ((c.hosts i).server.role = .leader → Begins tr (c.term i) l) := by
  obtain ⟨a, ha, hopen⟩ := opens h
  have hinv := ha.sim.logInv
  have href := ha.refines hi
  have hmatched := hinv.log_matched i
  obtain rfl := ha.eq_of_isLog hi hl
  refine ⟨fun e he => ⟨?_, ?_⟩, fun hrole => ?_⟩
  · rw [term, href.term]
    exact hinv.log_term he
  · obtain ⟨j, log, hwon⟩ : ∃ j log, (j, .effect (.becomeLeader e.term log)) ∈ tr := by
      have horig := (originates h).log i hi e (by rwa [href.log])
      cases horig with
      | noop j log hwon => exact ⟨j, log, hwon⟩
      | request j w log hwon => exact ⟨j, log, hwon⟩
    obtain ⟨k, hk⟩ := List.mem_iff_getElem?.mp he
    have hmem : e ∈ (a.log i).take (k + 1) := by
      refine List.mem_of_getElem? (i := k) ?_
      rw [List.getElem?_take_of_lt (Nat.lt_succ_self k), hk]
    obtain ⟨j', log', hwon', hold, hpre⟩ := ha.begins h hopen hwon (hmatched k e hk) hmem rfl
    exact ⟨j', log', hwon', hold, hpre.trans (List.take_prefix _ _)⟩
  · obtain ⟨log, hmark⟩ := ha.elections.leads i hi hrole
    have hwon : (i, .effect (.becomeLeader (c.term i) log)) ∈ tr := mem_effects.mp hmark
    have hterm : c.term i = a.term i := href.term
    have hlead : a.log i = a.leaderLog (c.term i) := by
      rw [hterm]
      exact hinv.leader_log i ((ha.standing hi).leads hrole)
    have hpre := hopen hwon
    rw [← hlead] at hpre
    exact ha.begins h hopen hwon (hlead ▸ List.prefix_rfl)
      (hpre.subset (List.mem_append_right _ List.mem_cons_self)) rfl

/-- Node 1 loses its leadership and wins it back. -/
theorem terms_begin_with_noop_won_back : ∃ tr c l, Run (machine .three) Admissible tr c ∧
    l = [⟨1, 1, .noop⟩, ⟨1, 2, (Request.put [107] [118]).command⟩, ⟨3, 3, .noop⟩] ∧
    (∀ e ∈ l, e.term ≤ c.term 1 ∧ Begins tr e.term l) ∧
      ((c.hosts 1).server.role = .leader → Begins tr (c.term 1) l) := by
  let put : LogEntry := ⟨1, 2, (Request.put [107] [118]).command⟩
  obtain ⟨tr, c, hrun, h⟩ := Run.exists_of_exec admissible_of_admits (M := machine .three)
    (fun c _ => decide ((c.hosts 1).server.logEntries =
      [⟨1, 1, .noop⟩, ⟨1, 2, (Request.put [107] [118]).command⟩, ⟨3, 3, .noop⟩]))
    (firstLeader ++ [.run 1 (.thread (.propose (.put [107] [118])))] ++
      deliver 1 2 ⟨1, 1, 1, 1, [put], 1⟩ ++ campaign 2 3 2 2 1 ++
      exchange 2 1 ⟨2, 2, 3, 2, [], 1⟩ false ++ campaign 1 3 3 2 1)
    (by decide +kernel)
  exact ⟨tr, c, _, hrun, of_decide_eq_true h,
    terms_begin_with_noop hrun (by decide) (Or.inl rfl)⟩

end Cluster

end RaftConsensus
