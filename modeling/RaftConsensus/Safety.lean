import RaftConsensus.Sections

/-!
# What every run of a cluster keeps

The refinement turns statements about the abstract protocol into statements about what
nodes have done and what they hold, in memory and on disk:

* `applied_unique`: state machine safety.  No two nodes apply different commands at one
  index, whether they apply it while they run or while they recover.
* `leader_complete`: what a leader has committed is in the log of every later leader.
* `logs_match`: two logs with entries of one term at one position are the same up to it.

`Cluster.admits` is `Admissible` as a program, for the runs that show that the statements
speak of something.
-/

namespace RaftConsensus

namespace Cluster

variable {conf : Config} {c : Cluster} {tr : List (ℕ × Node.Event)}

/-- Any two majorities share a member. -/
theorem majorities_meet (conf : Config) :
    ∀ A B, conf.Majority A → conf.Majority B → ∃ v, v ∈ A ∧ v ∈ B :=
  fun _ _ => conf.majority_inter

/-- What a member has done has happened in the protocol. -/
theorem Refined.explained_mem {a : Abstract} (h : Refined conf tr c a)
    (hrun : Run (machine conf) Admissible tr c) {i : ℕ} {e : Effect}
    (he : (i, .effect e) ∈ tr) : e.Explained a i :=
  h.explained (mem_members (hrun.mono fun _ _ => Admissible.intact) he) (mem_effects.mpr he)

/-- A member's log starts with what was committed, up to its commit index. -/
theorem Refined.take_eq_of_commit {a : Abstract} (h : Refined conf tr c a) {i t n k : ℕ}
    (hc : (t, n) ∈ a.commits) (hkn : k ≤ n) (hk : k ≤ a.commit i) :
    (a.log i).take k = (a.leaderLog t).take k := by
  have hlen := h.sim.commit_le_log i
  have hlen' := commit_le_leaderLog h.sim.safetyInv hc
  refine List.ext_getElem? fun j => ?_
  rcases Nat.lt_or_ge j k with hlt | hge
  · rw [List.getElem?_take_of_lt hlt, List.getElem?_take_of_lt hlt]
    obtain ⟨e, he⟩ : ∃ e, (a.log i)[j]? = some e := ⟨_, List.getElem?_eq_getElem (by omega)⟩
    obtain ⟨t', n', hc', hn', he'⟩ := h.committed (Nat.succ_pos j) (by omega) he
    rw [he, ← he']
    exact Protocol.getElem?_commit_eq (majorities_meet conf) h.sim.logInv h.sim.safetyInv hc' hc
      (Nat.lt_of_succ_le hn') (by omega)
  · rw [List.getElem?_take_eq_none hge, List.getElem?_take_eq_none hge]

/-- `Admissible`, decided; of crashes only those whose start succeeds at once. -/
def admits (c : Cluster) : Action → Bool
  | .run i g =>
    (g ≠ .thread .electionTimeout || c.term i + 1 < 2 ^ 64) &&
      (c.hosts i).server.logEntries.length + 1 < 2 ^ 64 &&
      match g with
      | .thread (.propose request) => decide request.command.Fits
      | .packet (.appendEntries _ _ _ args) => (serializeAppendEntriesArgs args).length < 2 ^ 32
      | _ => true
  | .crash _ [] => true
  | .crash _ (_ :: _) => false
  | .crashIn .. => false
  | .lose _ => true

theorem admissible_of_admits (c : Cluster) (x : Action) (h : c.admits x = true) :
    c.Admissible x := by
  rcases x with ⟨i, g⟩ | ⟨i, _ | _⟩ | _ | _
  · simp only [admits, Bool.and_eq_true, Bool.or_eq_true, decide_eq_true_eq] at h
    obtain ⟨⟨hterm, hlen⟩, hg⟩ := h
    refine ⟨fun heq => hterm.resolve_left (not_not.mpr heq), hlen, fun request heq => ?_,
      fun caller b callee args heq => ?_⟩
    · subst heq
      exact of_decide_eq_true hg
    · subst heq
      exact of_decide_eq_true hg
  · trivial
  · exact absurd h (by simp [admits])
  · exact absurd h (by simp [admits])
  · trivial

/-- Node `i`, in its first life, stands in term `t` and gets the vote of `v`; its log ends with the
given index and term. -/
def campaign (i v t lastIndex lastTerm : ℕ) : List Action :=
  [.run i (.thread .electionTimeout), .run i (.thread .sendRequestVotes),
    .run v (.packet (.requestVote i 0 v ⟨t, i, lastIndex, lastTerm⟩)),
    .run i (.packet (.requestVoteReply i 0 v t ⟨t, true⟩))]

/-- Node `i`, in its first life, sends `args` to `v`, and `v` receives it. -/
def deliver (i v : ℕ) (args : AppendEntriesArgs) : List Action :=
  [.run i (.thread (.replicate v)), .run v (.packet (.appendEntries i 0 v args))]

/-- The reply comes back. -/
def confirm (i v : ℕ) (args : AppendEntriesArgs) (success : Bool) : Action :=
  .run i (.packet (.appendEntriesReply i 0 v args ⟨args.term, success⟩))

/-- Node `i` sends `args` to `v`, and the reply comes back. -/
def exchange (i v : ℕ) (args : AppendEntriesArgs) (success : Bool) : List Action :=
  deliver i v args ++ [confirm i v args success]

/-- The first leader of three: its probe of node 2 fails, and its log gets there after that. -/
def firstLeader : List Action :=
  campaign 1 2 1 0 0 ++ deliver 1 2 ⟨1, 1, 1, 1, [], 0⟩ ++ [confirm 1 2 ⟨1, 1, 1, 1, [], 0⟩ false] ++
    deliver 1 2 ⟨1, 1, 0, 0, [⟨1, 1, .noop⟩], 0⟩ ++
    [confirm 1 2 ⟨1, 1, 0, 0, [⟨1, 1, .noop⟩], 0⟩ true]

/-! ## State machine safety -/

/-- **State machine safety.**  Whatever two nodes have ever applied at one index is one command. -/
theorem applied_unique (h : Run (machine conf) Admissible tr c) {i j index : ℕ}
    {command command' : Command} (hi : (i, .effect (.applied index command)) ∈ tr)
    (hj : (j, .effect (.applied index command')) ∈ tr) : command = command' := by
  obtain ⟨a, ha⟩ := refined h
  obtain ⟨t, n, e, hc, hpos, hle, he, rfl⟩ := ha.explained_mem h hi
  obtain ⟨t', n', e', hc', -, hle', he', rfl⟩ := ha.explained_mem h hj
  have hsame := Protocol.getElem?_commit_eq (majorities_meet conf) ha.sim.logInv ha.sim.safetyInv
    hc hc' (k := index - 1) (by omega) (by omega)
  rw [he, he'] at hsame
  rw [Option.some.inj hsame]

/-- A value is stored; its leader applies it, crashes, and applies it again, and a follower
applies it. -/
theorem applied_unique_put : ∃ tr c, Run (machine .three) Admissible tr c ∧
    (∀ j command, (j, .effect (.applied 2 command)) ∈ tr →
      (Request.put [107] [118]).command = command) ∧
    .applied 2 (Request.put [107] [118]).command ∈ effects 1 tr ∧
    .applied 2 (Request.put [107] [118]).command ∈ effects 2 tr := by
  let put : LogEntry := ⟨1, 2, (Request.put [107] [118]).command⟩
  obtain ⟨tr, c, hrun, h⟩ := Run.exists_of_exec admissible_of_admits (M := machine .three)
    (fun c tr => decide (.applied 2 (Request.put [107] [118]).command ∈ effects 1 tr ∧
      .applied 2 (Request.put [107] [118]).command ∈ effects 2 tr ∧
        (c.hosts 1).server.metadata.lastApplied = 2))
    (firstLeader ++ [.run 1 (.thread (.propose (.put [107] [118])))] ++
      exchange 1 2 ⟨1, 1, 1, 1, [put], 1⟩ true ++ deliver 1 2 ⟨1, 1, 2, 1, [], 2⟩ ++
      [.crash 1 []])
    (by decide +kernel)
  obtain ⟨h1, h2, -⟩ := of_decide_eq_true h
  exact ⟨tr, c, hrun, fun _ _ hj => applied_unique hrun (mem_effects.mp h1) hj, h1, h2⟩

/-! ## Leader completeness -/

/-- **Leader completeness.**  What the leader of term `T` has committed, the first `N` entries of
its log, is at the same place in the log of whoever becomes leader in a later term. -/
theorem leader_complete (h : Run (machine conf) Admissible tr c) {i j T N T' : ℕ}
    {log log' : List LogEntry} (hi : (i, .effect (.advanceCommit T N log)) ∈ tr)
    (hj : (j, .effect (.becomeLeader T' log')) ∈ tr) (hlt : T < T') :
    log'.take N = log.take N ∧ N ≤ log.length ∧ N ≤ log'.length := by
  obtain ⟨a, ha⟩ := refined h
  obtain ⟨hc, htake⟩ := ha.explained_mem h hi
  obtain ⟨hlead, helect⟩ := ha.explained_mem h hj
  have hlen := commit_le_leaderLog ha.sim.safetyInv hc
  have hpre := Protocol.leaderComplete (majorities_meet conf) ha.sim.logInv ha.sim.safetyInv hc hlt
    hlead
  rw [helect] at hpre
  have hN : ((a.leaderLog T).take N).length = N := List.length_take_of_le hlen
  refine ⟨?_, ?_, ?_⟩
  · rw [htake, List.prefix_iff_eq_take.mp hpre, hN]
  · rw [← htake, List.length_take] at hN
    omega
  · rw [← hN]
    exact hpre.length_le

/-- Node 1 commits its first entry, and node 2, which has it, is the next leader. -/
theorem leader_complete_three : ∃ tr c, Run (machine .three) Admissible tr c ∧
    .advanceCommit 1 1 [⟨1, 1, .noop⟩] ∈ effects 1 tr ∧
    .becomeLeader 2 [⟨1, 1, .noop⟩] ∈ effects 2 tr ∧
    ∀ j log', (j, .effect (.becomeLeader 2 log')) ∈ tr →
      log'.take 1 = [⟨1, 1, .noop⟩] ∧ 1 ≤ 1 ∧ 1 ≤ log'.length := by
  obtain ⟨tr, c, hrun, h⟩ := Run.exists_of_exec admissible_of_admits (M := machine .three)
    (fun _ tr => decide (.advanceCommit 1 1 [⟨1, 1, .noop⟩] ∈ effects 1 tr ∧
      .becomeLeader 2 [⟨1, 1, .noop⟩] ∈ effects 2 tr))
    (firstLeader ++ campaign 2 3 2 1 1) (by decide +kernel)
  obtain ⟨h1, h2⟩ := of_decide_eq_true h
  exact ⟨tr, c, hrun, h1, h2, fun _ _ hj =>
    leader_complete hrun (mem_effects.mp h1) hj (by decide)⟩

/-! ## Log matching -/

/-- The logs of member `i`: in memory, and as the disk is read. -/
def IsLog (c : Cluster) (i : ℕ) (l : List LogEntry) : Prop :=
  l = (c.hosts i).server.logEntries ∨ l = (readLogs (c.hosts i).files).1

/-- All logs of the members are indexed, their terms do not decrease, and any two of them are the
same up to a position at which their terms agree. -/
structure LogsMatch (conf : Config) (c : Cluster) : Prop where
  matching : ∀ i ∈ conf.members, ∀ j ∈ conf.members, ∀ l l', c.IsLog i l → c.IsLog j l' →
    Matching l l'
  indexed : ∀ i ∈ conf.members, ∀ l, c.IsLog i l → Indexed l
  sorted : ∀ i ∈ conf.members, ∀ l, c.IsLog i l → l.Pairwise fun e e' => e.term ≤ e'.term

/-- **Log matching**, in memory and on disk. -/
theorem logs_match (h : Run (machine conf) Admissible tr c) : LogsMatch conf c := by
  obtain ⟨a, ha⟩ := refined h
  -- memory and disk of a member are the log of its node
  have hlog : ∀ i ∈ conf.members, ∀ l, c.IsLog i l → l = a.log i := by
    intro i hi l hl
    have hmir := ha.mirrored i hi
    rcases hl with rfl | rfl
    · exact (ha.refines hi).log
    · rw [readLogs_of_logBytes hmir.disk hmir.logged.entries]
      exact (ha.refines hi).log
  have hmatched : ∀ i ∈ conf.members, ∀ l, c.IsLog i l → Protocol.Matched a l := by
    intro i hi l hl
    rw [hlog i hi l hl]
    exact ha.sim.logInv.log_matched i
  refine ⟨?_, ?_, ?_⟩
  · intro i hi j hj l l' hl hl'
    exact matching_of_matched (hmatched i hi l hl) (hmatched j hj l' hl')
  · intro i hi l hl
    exact ha.sim.indexed_log (hmatched i hi l hl)
  · intro i hi l hl
    rw [List.pairwise_iff_getElem]
    intro j k hj hk hjk
    exact ha.sim.logInv.term_le_of_le (hmatched i hi l hl) (List.getElem?_eq_getElem hj)
      (List.getElem?_eq_getElem hk) hjk.le

/-- A leader that nobody has followed is a follower later, and its log is rewritten. -/
theorem logs_match_rewritten : ∃ tr c, Run (machine .three) Admissible tr c ∧ LogsMatch .three c ∧
    (c.hosts 1).server.logEntries = [⟨2, 1, .noop⟩] ∧ .becomeLeader 1 [] ∈ effects 1 tr := by
  obtain ⟨tr, c, hrun, h⟩ := Run.exists_of_exec admissible_of_admits (M := machine .three)
    (fun c tr => decide ((c.hosts 1).server.logEntries = [⟨2, 1, .noop⟩] ∧
      .becomeLeader 1 [] ∈ effects 1 tr))
    (campaign 1 2 1 0 0 ++ [.run 1 (.thread (.propose (.put [107] [118])))] ++
      campaign 2 3 2 0 0 ++ exchange 2 1 ⟨2, 2, 1, 2, [], 0⟩ false ++
      deliver 2 1 ⟨2, 2, 0, 0, [⟨2, 1, .noop⟩], 0⟩)
    (by decide +kernel)
  obtain ⟨h1, h2⟩ := of_decide_eq_true h
  exact ⟨tr, c, hrun, logs_match hrun, h1, h2⟩

end Cluster

end RaftConsensus
