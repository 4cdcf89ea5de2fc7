import RaftConsensus.Dump
import RaftConsensus.Safety

/-!
# Who holds what

A commit and an acknowledgement are remembered as numbers: a commit index, a `matchIndex`.  The
entries behind them are in the logs of other nodes, which go on changing.  This module says that
the numbers stay true, over whole runs and across crashes:

* `committed_on_majority`: what was ever committed is at every later moment on the disks of a
  majority.
* `matchIndex_truthful`: a peer that is in its leader's term holds what the leader has credited
  it with.
* `leader_append_only`: within a term a leader's log only grows.
* `replicas_agree`: two nodes that have applied equally many entries, at whatever moments, have
  the same state machine and print the same dump and the same digest.
-/

namespace RaftConsensus

open Protocol (Grows)

namespace Cluster

variable {conf : Config} {c c' : Cluster} {tr tr' : List (ℕ × Node.Event)} {a : Abstract}

/-- The refinement is carried along a path. -/
theorem Refined.path (h : Refined conf tr c a) (hp : Path (machine conf) Admissible c tr' c') :
    ∃ a', Grows a a' ∧ Refined conf (tr ++ tr') c' a' := by
  induction hp with
  | refl =>
    rw [List.append_nil]
    exact ⟨a, Grows.refl a, h⟩
  | next _ hadm hs ih =>
    obtain ⟨a₁, hg, h₁⟩ := ih
    obtain ⟨a₂, hg', -, h₂⟩ := h₁.step hadm hs
    rw [← List.append_assoc]
    exact ⟨a₂, hg.trans hg', h₂⟩

/-- Memory and disk of a member hold the log of its node. -/
theorem Refined.eq_of_isLog (h : Refined conf tr c a) {i : ℕ} (hi : i ∈ conf.members)
    {l : List LogEntry} (hl : c.IsLog i l) : l = a.log i := by
  have hmir := h.mirrored i hi
  rcases hl with rfl | rfl
  · exact (h.refines hi).log
  · rw [readLogs_of_logBytes hmir.disk hmir.logged.entries]
    exact (h.refines hi).log

/-! ## What is committed -/

/-- **Committed entries stay on a majority.**  What a leader has committed at any time is, at every
moment from then on, the beginning of the logs of a majority, in memory and on disk. -/
theorem committed_on_majority (h : Run (machine conf) Admissible tr c) {i t n : ℕ}
    {log : List LogEntry} (hi : (i, .effect (.advanceCommit t n log)) ∈ tr) :
    ∃ V, conf.Majority V ∧ ∀ v ∈ V, ∀ l, c.IsLog v l → log.take n <+: l := by
  obtain ⟨a, ha⟩ := refined h
  obtain ⟨hc, htake⟩ := ha.explained_mem h hi
  obtain ⟨V, hV, hheld⟩ := Protocol.committed_held (majorities_meet conf) ha.sim.logInv
    ha.sim.safetyInv hc
  refine ⟨V, hV, fun v hv l hl => ?_⟩
  rw [ha.eq_of_isLog (hV.1 hv) hl, htake]
  exact hheld v hv

/-- A value is committed with the help of node 2, and its leader crashes. -/
theorem committed_on_majority_put : ∃ tr c, Run (machine .three) Admissible tr c ∧
    (c.hosts 1).boot = 1 ∧
    (1, .effect (.advanceCommit 1 2 [⟨1, 1, .noop⟩, ⟨1, 2, (Request.put [107] [118]).command⟩])) ∈
      tr ∧
    ∃ V, Config.three.Majority V ∧ ∀ v ∈ V, ∀ l, c.IsLog v l →
      [⟨1, 1, .noop⟩, ⟨1, 2, (Request.put [107] [118]).command⟩].take 2 <+: l := by
  let put : LogEntry := ⟨1, 2, (Request.put [107] [118]).command⟩
  obtain ⟨tr, c, hrun, h⟩ := Run.exists_of_exec admissible_of_admits (M := machine .three)
    (fun c tr => decide ((c.hosts 1).boot = 1 ∧ .advanceCommit 1 2
      [⟨1, 1, .noop⟩, ⟨1, 2, (Request.put [107] [118]).command⟩] ∈ effects 1 tr))
    (firstLeader ++ [.run 1 (.thread (.propose (.put [107] [118])))] ++
      exchange 1 2 ⟨1, 1, 1, 1, [put], 1⟩ true ++ [.crash 1 []])
    (by decide +kernel)
  obtain ⟨hboot, hmark⟩ := of_decide_eq_true h
  have hmark := mem_effects.mp hmark
  exact ⟨tr, c, hrun, hboot, hmark, committed_on_majority hrun hmark⟩

/-! ## What a leader knows of its peers -/

/-- What leader `i` has noted about the log of its peer `p` is so. -/
structure Informed (c : Cluster) (i p : ℕ) : Prop where
  /-- what is credited is a part of the leader's log -/
  within : (c.hosts i).server.matchIndex p ≤ (c.hosts i).server.logEntries.length
  /-- the next entry to send is in the leader's log, or the next one there -/
  next : (c.hosts i).server.nextIndex p ≤ (c.hosts i).server.logEntries.length + 1
  /-- a peer that is credited with something has reached the leader's term -/
  term : 0 < (c.hosts i).server.matchIndex p → c.term i ≤ c.term p
  /-- and as long as it is in this term it holds what it is credited with -/
  held : c.term p = c.term i → ∀ l, c.IsLog p l →
    (c.hosts i).server.logEntries.take ((c.hosts i).server.matchIndex p) <+: l

/-- **`matchIndex` is truthful**: what a leader has credited a peer with is in the peer's log, in
memory and on disk, until the peer goes on to a later term. -/
theorem matchIndex_truthful (h : Run (machine conf) Admissible tr c) {i p : ℕ}
    (hi : i ∈ conf.members) (hp : p ∈ conf.peers i) (hrole : (c.hosts i).server.role = .leader) :
    c.Informed i p := by
  obtain ⟨a, ha⟩ := refined h
  have hpm := ((conf.mem_peers i hi p).mp hp).1
  have hst := ha.standing hi
  have href := ha.refines hi
  have hpeer : p ∈ (c.hosts i).server.peers := href.peers ▸ hp
  have hlog : (c.hosts i).server.logEntries = a.leaderLog (a.term i) :=
    href.log.trans (ha.sim.logInv.leader_log i (hst.leads hrole))
  have hmatched := hst.matched hrole p hpeer
  have hle : (c.hosts i).server.matchIndex p ≤ (a.leaderLog (a.term i)).length :=
    hmatched.trans (ha.sim.logInv.acked_le p (a.term i))
  refine ⟨hlog ▸ hle, ?_, fun hpos => ?_, fun hterm l hl => ?_⟩
  · rw [href.log]
    exact hst.next hrole p hpeer
  · rw [term, term, href.term, (ha.refines hpm).term]
    exact ha.sim.logInv.acked_term (lt_of_lt_of_le hpos hmatched)
  · rw [term, term, href.term, (ha.refines hpm).term] at hterm
    rw [ha.eq_of_isLog hpm hl, hlog, ← hterm]
    rcases Nat.eq_zero_or_pos ((c.hosts i).server.matchIndex p) with h0 | hpos
    · rw [h0, List.take_zero]
      exact List.nil_prefix
    · refine ha.sim.safetyInv.acked_held ⟨hterm ▸ hle, Or.inl ⟨?_, hpos⟩⟩
      rw [hterm]
      exact hmatched

/-- The first leader has credited node 2 with its entry. -/
theorem matchIndex_truthful_first : ∃ tr c, Run (machine .three) Admissible tr c ∧
    (c.hosts 1).server.role = .leader ∧ (c.hosts 1).server.matchIndex 2 = 1 ∧
    c.Informed 1 2 := by
  obtain ⟨tr, c, hrun, h⟩ := Run.exists_of_exec admissible_of_admits (M := machine .three)
    (fun c _ => decide ((c.hosts 1).server.role = .leader ∧ (c.hosts 1).server.matchIndex 2 = 1))
    firstLeader (by decide +kernel)
  obtain ⟨hrole, hmatch⟩ := of_decide_eq_true h
  exact ⟨tr, c, hrun, hrole, hmatch, matchIndex_truthful hrun (by decide) (by decide) hrole⟩

/-! ## The log of a leader -/

/-- **Leader append-only.**  If a node leads the same term at two moments, its log at the later one
starts with its log at the earlier one, in memory and on disk. -/
theorem leader_append_only (h : Run (machine conf) Admissible tr c)
    (hpath : Path (machine conf) Admissible c tr' c') {i : ℕ} (hi : i ∈ conf.members)
    (hrole : (c.hosts i).server.role = .leader) (hrole' : (c'.hosts i).server.role = .leader)
    (hterm : c'.term i = c.term i) {l l' : List LogEntry} (hl : c.IsLog i l)
    (hl' : c'.IsLog i l') : l <+: l' := by
  obtain ⟨a, ha⟩ := refined h
  obtain ⟨a', hg, ha'⟩ := ha.path hpath
  rw [term, term, (ha.refines hi).term, (ha'.refines hi).term] at hterm
  rw [ha.eq_of_isLog hi hl, ha'.eq_of_isLog hi hl',
    ha.sim.logInv.leader_log i ((ha.standing hi).leads hrole),
    ha'.sim.logInv.leader_log i ((ha'.standing hi).leads hrole'), hterm]
  exact hg.leaderLog _

/-- The first leader takes a request and sends it. -/
theorem leader_append_only_put : ∃ tr c tr' c', Run (machine .three) Admissible tr c ∧
    Path (machine .three) Admissible c tr' c' ∧
    (c.hosts 1).server.logEntries.length = 1 ∧ (c'.hosts 1).server.logEntries.length = 2 ∧
    ∀ l l', c.IsLog 1 l → c'.IsLog 1 l' → l <+: l' := by
  let put : LogEntry := ⟨1, 2, (Request.put [107] [118]).command⟩
  obtain ⟨tr, c, tr', c', hrun, hpath, h⟩ := Run.exists_path_of_exec admissible_of_admits
    (M := machine .three)
    (fun c c' => decide ((c.hosts 1).server.role = .leader ∧ (c'.hosts 1).server.role = .leader ∧
      c'.term 1 = c.term 1 ∧ (c.hosts 1).server.logEntries.length = 1 ∧
      (c'.hosts 1).server.logEntries.length = 2))
    firstLeader
    (.run 1 (.thread (.propose (.put [107] [118]))) :: exchange 1 2 ⟨1, 1, 1, 1, [put], 1⟩ true)
    (by decide +kernel)
  obtain ⟨hrole, hrole', hterm, hlen, hlen'⟩ := of_decide_eq_true h
  exact ⟨tr, c, tr', c', hrun, hpath, hlen, hlen', fun _ _ hl hl' =>
    leader_append_only hrun hpath (by decide) hrole hrole' hterm hl hl'⟩

/-! ## What is applied -/

/-- What two nodes have applied at two moments, up to the smaller of their commit indices. -/
theorem Refined.take_log_eq (h : Refined conf tr c a) {a' : Abstract}
    (h' : Refined conf tr' c' a') (hg : Grows a a') {i j k : ℕ} (hk : k ≤ a.commit i)
    (hk' : k ≤ a'.commit j) : (a.log i).take k = (a'.log j).take k := by
  rcases h.sim.safetyInv.commit_le i with h0 | ⟨t, m, hc, -, hm, heq⟩
  · obtain rfl : k = 0 := by omega
    rfl
  · have hlen := commit_le_leaderLog h.sim.safetyInv hc
    calc (a.log i).take k = (a.leaderLog t).take k := take_eq_of_take_eq heq hk
      _ = (a'.leaderLog t).take k := (hg.take_leaderLog (by omega)).symm
      _ = (a'.log j).take k :=
        (h'.take_eq_of_commit (hg.commits hc) (hk.trans hm) hk').symm

/-- **Replicas agree.**  Two members that have applied equally many entries, at the same moment or
at two different ones, have the same state machine, and their dumps and digests are the same
texts. -/
theorem replicas_agree (h : Run (machine conf) Admissible tr c)
    (hpath : Path (machine conf) Admissible c tr' c') {i j : ℕ} (hi : i ∈ conf.members)
    (hj : j ∈ conf.members)
    (happ : (c.hosts i).server.metadata.lastApplied = (c'.hosts j).server.metadata.lastApplied) :
    (c.hosts i).server.stateMachine = (c'.hosts j).server.stateMachine ∧
      ∀ all all', all.Perm (c.hosts i).server.stateMachine.pairs →
        all'.Perm (c'.hosts j).server.stateMachine.pairs →
          handleDump all = handleDump all' ∧ handleHash all = handleHash all' := by
  obtain ⟨a, ha⟩ := refined h
  obtain ⟨a', hg, ha'⟩ := ha.path hpath
  rw [(ha.refines hi).lastApplied, (ha'.refines hj).lastApplied] at happ
  have hsame : (c.hosts i).server.stateMachine = (c'.hosts j).server.stateMachine := by
    rw [(ha.refines hi).stateMachine, (ha'.refines hj).stateMachine, ← happ,
      ha.take_log_eq ha' hg le_rfl happ.le]
  refine ⟨hsame, fun all all' hall hall' => ?_⟩
  rw [hsame] at hall
  have hsort := KVStateMachine.sortPairs_eq (hall.trans hall'.symm)
  have hlen := (hall.trans hall'.symm).length_eq
  simp only [handleDump, handleHash, render, hsort, hlen, and_self]

/-- The leader applies a value, and a follower does so later. -/
theorem replicas_agree_put : ∃ tr c tr' c', Run (machine .three) Admissible tr c ∧
    Path (machine .three) Admissible c tr' c' ∧
    (c.hosts 1).server.metadata.lastApplied = 2 ∧ (c.hosts 2).server.metadata.lastApplied = 1 ∧
    (c'.hosts 2).server.metadata.lastApplied = 2 ∧
    (c.hosts 1).server.stateMachine = (c'.hosts 2).server.stateMachine ∧
      ∀ all all', all.Perm (c.hosts 1).server.stateMachine.pairs →
        all'.Perm (c'.hosts 2).server.stateMachine.pairs →
          handleDump all = handleDump all' ∧ handleHash all = handleHash all' := by
  let put : LogEntry := ⟨1, 2, (Request.put [107] [118]).command⟩
  obtain ⟨tr, c, tr', c', hrun, hpath, h⟩ := Run.exists_path_of_exec admissible_of_admits
    (M := machine .three)
    (fun c c' => decide ((c.hosts 1).server.metadata.lastApplied = 2 ∧
      (c.hosts 2).server.metadata.lastApplied = 1 ∧
      (c'.hosts 2).server.metadata.lastApplied = 2))
    (firstLeader ++ [.run 1 (.thread (.propose (.put [107] [118])))] ++
      exchange 1 2 ⟨1, 1, 1, 1, [put], 1⟩ true)
    (deliver 1 2 ⟨1, 1, 2, 1, [], 2⟩) (by decide +kernel)
  obtain ⟨happ, hbehind, happ'⟩ := of_decide_eq_true h
  exact ⟨tr, c, tr', c', hrun, hpath, happ, hbehind, happ',
    replicas_agree hrun hpath (by decide) (by decide) (happ.trans happ'.symm)⟩

end Cluster

end RaftConsensus
