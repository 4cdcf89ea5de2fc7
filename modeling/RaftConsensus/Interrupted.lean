import RaftConsensus.Holdings
import RaftConsensus.Stages

/-!
# Crashes in the middle of a section

`Admissible` lets a node crash between two sections only.  Here it may crash inside one, after any
number of its storage calls and in the middle of the next.  What is then on disk is what one of the
stages of the section has left, and a start on it is a start of the server of this stage.

* `crashFiles_stage`: the disk at a crash point reads like the disk after some of the effects.
* `Cluster.Survivable`: crashes may come anywhere.  What is excluded is the window of
  `updateMetaData` between the open and the write, in which term and vote are lost.
* `Cluster.refined_interrupted`: the cluster refines the protocol, in every such run.
* `Cluster.consistent`: **what consensus promises, it keeps**, wherever nodes crash.
-/

namespace RaftConsensus

open Protocol (Reachable Confined Grows LogInv SafetyInv UpToDate lastTerm)

/-! ## Crash points -/

/-- **A storage call that was begun and not finished** is seen by no reader, if it is not one of
`updateMetaData`. -/
theorem reads_calls_take {W : LogEntry → Prop} {i k : ℕ} {e : Effect} {l : List LogEntry}
    {files : Files} (hlawful : e.Lawful i (diskBallot files)) (hstoring : e.Storing W l)
    (hmeta : ∀ m, e ≠ .updateMetaData m) (hpos : k ≠ 0) (hlt : k < e.calls.length) :
    diskBallot (runCalls noFaults (e.calls.take k) files).2 = diskBallot files ∧
      logBytes (runCalls noFaults (e.calls.take k) files).2 = logBytes files ∧
      diskCommit (runCalls noFaults (e.calls.take k) files).2 ≤ diskCommit files := by
  refine ⟨?_, logBytes_calls_take hstoring hlt,
    diskCommit_calls_take_le le_rfl (fun m hm => absurd hm (hmeta m)) k⟩
  by_cases hcreate : e = .createMetaData
  · subst hcreate
    have hzero : diskBallot files = (0, 0) := hlawful
    have hlen : Effect.createMetaData.calls.length = 2 := rfl
    -- the new file is empty and reads as the default, like no file at all
    have hempty : (runCalls noFaults (Effect.createMetaData.calls.take k) files).2 .metadata =
        some [] := by
      rw [show k = 1 by omega]
      simp [Effect.calls, createMetaData, runCalls, Syscall.run, noFaults]
    rw [hzero, diskBallot, getMetaData_empty hempty]
    rfl
  · exact diskBallot_congr (runCalls_of_not_touched (fun x hx =>
      e.calls_not_touched hmeta hcreate x (List.mem_of_mem_take hx)) _ _)

/-- **The disk at a crash point** reads like the disk after the first effects: those that are
complete, and perhaps the one that was cut short, if it is a storage call. -/
theorem crashFiles_stage {W : LogEntry → Prop} {i : ℕ} {es : List Effect} {p q : ℕ × ℕ}
    {l l' : List LogEntry} {files : Files} (hballots : (ballots i).Reads p es q)
    (hlogs : (logs W).Reads l es l') (hp : diskBallot files = p) {c : CrashPoint}
    (hc : ¬ TornAt es c) :
    ∃ k, c.done ≤ k ∧ (∀ e ∈ es.take k, e.calls = [] → e ∈ es.take c.done) ∧
      diskBallot (crashFiles es c files) = diskBallot (perform (es.take k) files) ∧
      logBytes (crashFiles es c files) = logBytes (perform (es.take k) files) ∧
      diskCommit (crashFiles es c files) ≤ diskCommit (perform (es.take k) files) := by
  rcases he : es[c.done]? with _ | e
  · refine ⟨c.done, le_rfl, fun e he _ => he, ?_⟩
    simp [crashFiles, he, runCalls]
  have hfiles : crashFiles es c files =
      (runCalls noFaults (e.calls.take c.calls) (perform (es.take c.done) files)).2 := by
    rw [crashFiles, he]
    rfl
  have htake : es.take (c.done + 1) = es.take c.done ++ [e] := by
    rw [List.take_add_one, he, Option.toList_some]
  by_cases hnone : e.calls.take c.calls = []
  · -- nothing of it was done
    refine ⟨c.done, le_rfl, fun e he _ => he, ?_⟩
    rw [hfiles, hnone]
    exact ⟨rfl, rfl, le_rfl⟩
  rcases Nat.lt_or_ge c.calls e.calls.length with hlt | hge
  · -- it was begun, and no reader sees it
    refine ⟨c.done, le_rfl, fun e he _ => he, ?_⟩
    have hpos : c.calls ≠ 0 := fun h0 => hnone (by rw [h0, List.take_zero])
    have hmeta : ∀ m, e ≠ .updateMetaData m := by
      rintro m rfl
      have hlen : (Effect.updateMetaData m).calls.length = 2 := rfl
      exact hc ⟨by omega, m, he⟩
    obtain ⟨r, hr, hlawful, -⟩ := hballots.getElem? he
    obtain ⟨r', -, hstoring, -⟩ := hlogs.getElem? he
    rw [← diskBallot_perform hr hp] at hlawful
    rw [hfiles]
    exact reads_calls_take hlawful hstoring hmeta hpos hlt
  · -- it is complete
    refine ⟨c.done + 1, Nat.le_succ _, fun x hx hcalls => ?_, ?_⟩
    · rw [htake] at hx
      refine (List.mem_append.mp hx).resolve_right fun hx => hnone ?_
      rw [← List.mem_singleton.mp hx, hcalls, List.take_nil]
    · rw [hfiles, List.take_of_length_le hge, htake, perform_append, perform_cons, perform_nil]
      exact ⟨rfl, rfl, le_rfl⟩

/-! ## Starting again -/

section Restart

variable {conf : Config} {past past' : ℕ → List Effect} {files files' : ℕ → Files}
  {net : List Packet} {servers : ℕ → Server} {a : Abstract} {i : ℕ} {s : Server}

/-- A node may forget how far it knows its log to be committed. -/
theorem Sim.reachable_learn (h : Sim conf past files net servers a) {k : ℕ}
    (hle : k ≤ a.commit i) : Reachable conf.Majority (a.learn i k) := by
  rcases h.safetyInv.commit_le i with h0 | ⟨t, m, hc, ht, hm, heq⟩
  · have hsame : a.learn i k = a := by
      rw [Protocol.State.learn, show k = a.commit i by omega, Function.update_eq_self]
    rw [hsame]
    exact h.reachable
  · exact .step h.reachable (.learn a i t m k hc ht (hle.trans hm) (take_eq_of_take_eq heq hle))

/-- What a start applies has been committed. -/
theorem Sim.explained_within (h : Sim conf past files net servers a) {e : Effect} (hboot : e.IsBoot)
    (hwithin : e.Within (a.log i) (a.commit i)) : e.Explained a i := by
  rcases e with _ | _ | _ | _ | _ | _ | _ | _ | _ | _ | _ | ⟨index, command⟩
  case applied =>
    obtain ⟨hpos, hle, x, hx, rfl⟩ := hwithin
    rcases h.safetyInv.commit_le i with h0 | ⟨t, m, hc, -, hm, heq⟩
    · omega
    · refine ⟨t, m, x, hc, hpos, hle.trans hm, ?_, rfl⟩
      rw [← getElem?_eq_of_take_eq heq (by omega), hx]
  all_goals trivial

/-- The node and the effects of a restart, if the disk has what the server `s` would have left: the
ballot and the log of `s`, and no more committed than `s` knew of. -/
structure Node.RestoredFrom (s : Server) (i : ℕ) (ps : List ℕ) (r : Node × List Effect) :
    Prop where
  settled : r.1.Settled i ps
  ballot : r.1.ballot = (s.metadata.currentTerm, s.metadata.votedFor)
  log : r.1.server.logEntries = s.logEntries
  role : r.1.server.role = .follower
  committed : r.1.Committed s.logEntries s.metadata.commitIndex
  boot : ∀ e ∈ r.2, e.IsBoot
  within : ∀ e ∈ r.2, e.Within s.logEntries s.metadata.commitIndex

/-- **A start on the disk of a server.** -/
theorem Node.restart_restored {n : Node} {ps : List ℕ} (hid : n.server.nodeId = i)
    (hps : n.server.peers = ps) {disk : Files} {retries : List CrashPoint}
    (hstarts : Node.IntactStarts n.server.nodeId n.server.peers retries disk)
    (hballot : diskBallot disk = (s.metadata.currentTerm, s.metadata.votedFor))
    (hlog : logBytes disk = serializeLog s.logEntries) (hwf : ∀ e ∈ s.logEntries, e.WellFormed)
    (hcommit : diskCommit disk ≤ s.metadata.commitIndex) :
    Node.RestoredFrom s i ps (n.restart retries disk) := by
  obtain ⟨hset, hb, -⟩ := Node.restart_settled hid hps (hid ▸ hps ▸ hstarts)
  obtain ⟨-, hlog'⟩ := Node.restart_mirrored (n := n) retries hlog hwf
  obtain ⟨hcom, hwithin⟩ := restart_committed (m := n) retries hlog hwf hcommit
  exact ⟨hset, hb.trans hballot, hlog', Node.restart_role n retries disk, hcom,
    fun _ => Node.isBoot_restart, hwithin⟩

/-- What is known of a node that was started again. -/
theorem Sim.accounted_restart (h : Sim conf past files net (Function.update servers i s) a)
    (hi : i ∈ conf.members) {r : Node × List Effect}
    (hr : Node.RestoredFrom s i (conf.peers i) r) {front : List Effect}
    (hfront : front ⊆ s.effects) :
    r.1.server.Accounted conf (a.learn i r.1.server.metadata.commitIndex) net i
      (past i ++ (front ++ r.2)) r.1.files := by
  have hself := h.accounted_self hi
  have href := hself.refines
  have hg := Confined.learn i a r.1.server.metadata.commitIndex
  obtain ⟨hterm, hvoted⟩ := Prod.mk.inj hr.ballot
  have hlearnt : (a.learn i r.1.server.metadata.commitIndex).commit i =
      r.1.server.metadata.commitIndex := by simp [Protocol.State.learn]
  refine ⟨?_, .of_follower hr.role, fun e he => ?_, ?_⟩
  · exact
      { nodeId := hr.settled.tracked.nodeId
        peers := hr.settled.tracked.peers
        term := hterm.trans href.term
        vote := by rw [hvoted]; exact href.vote
        log := hr.log.trans href.log
        commit := hlearnt.symm
        lastApplied := hr.committed.lastApplied.trans hlearnt.symm
        stateMachine := by
          rw [hr.committed.stateMachine, hlearnt, href.log]
          rfl }
  · rw [hr.settled.clean, List.append_nil, List.mem_append, List.mem_append] at he
    refine Effect.Explained.mono ?_ hg.grows h.safetyInv
    rcases he with he | he | he
    · exact hself.explained e (List.mem_append_left _ he)
    · exact hself.explained e (List.mem_append_right _ (hfront he))
    · exact h.explained_within (hr.boot e he) (href.log ▸ href.commit ▸ hr.within e he)
  · rw [hr.settled.clean, perform_nil]
    exact hr.committed.disk

/-- **A restart is a step of the protocol.**  The trace has all marks of the stage, and the commit
index goes back to the one on disk. -/
theorem Sim.restart (h : Sim conf past files net (Function.update servers i s) a)
    (hi : i ∈ conf.members) {r : Node × List Effect}
    (hr : Node.RestoredFrom s i (conf.peers i) r) {front : List Effect}
    (hfront : front ⊆ s.effects)
    (hmarks : ∀ t m log, .advanceCommit t m log ∈ s.effects → .advanceCommit t m log ∈ front)
    (hpast : past' i = past i ++ (front ++ r.2)) (hpast' : ∀ j, j ≠ i → past' j = past j)
    (hfiles : files' i = r.1.files) (hfiles' : ∀ j, j ≠ i → files' j = files j) :
    ∃ a', Confined i a a' ∧
      Sim conf past' files' net (Function.update servers i r.1.server) a' := by
  have hg := Confined.learn i a r.1.server.metadata.commitIndex
  have hle : r.1.server.metadata.commitIndex ≤ a.commit i :=
    (h.refines hi).commit ▸ hr.committed.le
  refine ⟨_, hg, h.reachable_learn hle, fun j hj => ?_, fun p hp =>
    (h.packets p hp).mono hg.grows h.safetyInv, h.indexed, h.short, h.candidates,
    fun {t m} hc => ?_⟩
  · by_cases hji : j = i
    · subst hji
      rw [Function.update_self, hpast, hfiles]
      exact h.accounted_restart hj hr hfront
    · have hother := h.accounted j hj
      rw [Function.update_of_ne hji] at hother ⊢
      rw [hpast' j hji, hfiles' j hji]
      exact hother.confined h.safetyInv hg hji fun _ hv => Or.inl hv
  · obtain ⟨j, hj, log, hmark⟩ := h.marked hc
    refine ⟨j, hj, log, ?_⟩
    by_cases hji : j = i
    · subst hji
      rw [Function.update_self, List.mem_append] at hmark
      rw [hpast]
      refine List.mem_append_left _ ?_
      rcases hmark with hmark | hmark
      · exact List.mem_append_left _ hmark
      · exact List.mem_append_right _ (List.mem_append_left _ (hmarks t m log hmark))
    · rw [Function.update_of_ne hji] at hmark ⊢
      rwa [hpast' j hji]

end Restart

namespace Cluster

variable {conf : Config} {c c' : Cluster} {tr evs : List (ℕ × Node.Event)} {a : Abstract}

/-- **A crash inside a section of a refined cluster.** -/
theorem Refined.crashIn (h : Refined conf tr c a) {i : ℕ} (hi : i ∈ conf.members) {g : Trigger}
    {x : Input} {net : List Packet} (hadm : c.Admissible (.run i g))
    (hfetch : c.fetch i g = some (x, net)) {m : Node} {os : List Output}
    (hm : (c.hosts i).handle x = some (m, os)) {p : CrashPoint} (hp : ¬ TornAt m.server.effects p)
    {retries : List CrashPoint}
    (hstarts : Node.IntactStarts (c.hosts i).server.nodeId (c.hosts i).server.peers retries
      (crashFiles m.server.effects p (c.hosts i).files)) {n : Node} {es : List Effect}
    (hn : (c.hosts i).restart retries (crashFiles m.server.effects p (c.hosts i).files) = (n, es)) :
    ∃ a', Confined i a a' ∧
      Sim conf (fun j => effects j (tr ++ tag i ((m.server.effects.take p.done ++ es).map .effect)))
        (fun j => (Function.update c.hosts i n j).files) net
        (fun j => (Function.update c.hosts i n j).server) a' := by
  have hset := h.elections.settled i hi
  have hmir := h.mirrored i hi
  have hsev := h.severable hi hadm hfetch hm
  obtain ⟨k, hk, hmarks, hballot, hlog, hcommit⟩ :=
    crashFiles_stage hsev.tracked.reads hsev.logged.reads hset.disk hp
  -- the stage that the disk shows
  obtain ⟨t, ht, heff⟩ := hsev.cut k
  obtain ⟨b, hg, hb⟩ := ht.simulated
  rw [← heff] at hballot hlog hcommit
  rw [diskBallot_perform ht.tracked.reads hset.disk] at hballot
  rw [logBytes_perform ht.logged.reads hmir.disk] at hlog
  have hrestored := Node.restart_restored (h.refines hi).nodeId (h.refines hi).peers hstarts
    hballot hlog ht.logged.entries (hcommit.trans (hb.accounted_self hi).disk)
  have hfront : m.server.effects.take p.done ⊆ t.effects := by
    rw [heff]
    exact (List.take_prefix_take_left hk).subset
  have hsim : ∃ a', Confined i b a' ∧
      Sim conf (fun j => effects j (tr ++ tag i ((m.server.effects.take p.done ++ es).map .effect)))
        (fun j => (Function.update c.hosts i n j).files) net
        (Function.update (fun j => (c.hosts j).server) i
          ((c.hosts i).restart retries (crashFiles m.server.effects p (c.hosts i).files)).1.server)
        a' := by
    refine hb.restart hi hrestored hfront ?_ ?_ ?_ ?_ ?_
    · intro u k log hmem
      rw [heff] at hmem
      exact hmarks _ hmem rfl
    · rw [hn, effects_append, effects_tag_self, Node.effects_map_effect]
    · intro j hj
      rw [effects_append, effects_tag_of_ne (Ne.symm hj), List.append_nil]
    · rw [hn, Function.update_self]
    · intro j hj
      rw [Function.update_of_ne hj]
  obtain ⟨a', hg', ha'⟩ := hsim
  rw [hn] at ha'
  rw [servers_update]
  exact ⟨a', hg.trans hg', ha'⟩

/-- What is assumed of a step if nodes may crash at any time: as before, but a crash may also come
inside a section.  It must not tear the metadata, and the section must be one that could have run
to its end. -/
def Survivable (c : Cluster) : Action → Prop
  | .crashIn i g p retries => c.Admissible (.run i g) ∧ c.Intact (.crashIn i g p retries)
  | x => c.Admissible x

theorem Survivable.intact {x : Action} (h : c.Survivable x) : c.Intact x := by
  rcases x with ⟨i, g⟩ | ⟨i, retries⟩ | ⟨i, g, p, retries⟩ | p
  · exact Admissible.intact h
  · exact Admissible.intact h
  · exact h.2
  · trivial

theorem Survivable.admissible {x : Action} (h : c.Survivable x)
    (hx : ∀ i g p retries, x ≠ .crashIn i g p retries) : c.Admissible x := by
  rcases x with ⟨i, g⟩ | ⟨i, retries⟩ | ⟨i, g, p, retries⟩ | p
  · exact h
  · exact h
  · exact absurd rfl (hx i g p retries)
  · exact h

/-- **Every step, with a crash wherever it comes, is a few steps of the protocol.** -/
theorem Refined.step_interrupted (h : Refined conf tr c a) {x : Action} (hx : c.Survivable x)
    (hs : Cluster.step conf c x = some (c', evs)) :
    ∃ a', Grows a a' ∧ Refined conf (tr ++ evs) c' a' := by
  have helect := h.elections.step hx.intact hs
  rcases x with ⟨i, g⟩ | ⟨i, retries⟩ | ⟨i, g, p, retries⟩ | p
  case crashIn =>
    cases step_moves hs with
    | crashIn i g p retries x net m os hi hfetch hm =>
      obtain ⟨hp, hstarts⟩ := hx.2.2 x net (m, os) hfetch hm
      obtain ⟨a', hg, hsim⟩ := h.crashIn hi hx.1 hfetch hm hp hstarts rfl
      have hmir := (h.mirrored i hi).crashIn (h.storable hx.1 hfetch) hm p retries
      exact ⟨a', hg.grows, hsim, h.mirrored_update i hmir,
        fun q hq => h.encodes q (fetch_subset hfetch hq), helect⟩
  all_goals
    obtain ⟨a', hg, -, ha'⟩ := h.step (hx.admissible (by simp)) hs
    exact ⟨a', hg, ha'⟩

/-- **The cluster refines the protocol**, wherever its nodes crash. -/
theorem refined_interrupted (h : Run (machine conf) Survivable tr c) :
    ∃ a, Refined conf tr c a := by
  refine h.invariant (I := fun tr c => ∃ a, Refined conf tr c a) ⟨_, refined_initial conf⟩ ?_
  rintro tr c x c' evs - ⟨a, ha⟩ hx hs
  obtain ⟨a', -, ha'⟩ := ha.step_interrupted hx hs
  exact ⟨a', ha'⟩

/-! ## The promises of consensus -/

/-- What consensus promises of a run that has left the trace `tr` and got to `c`. -/
structure Consistent (conf : Config) (tr : List (ℕ × Node.Event)) (c : Cluster) : Prop where
  /-- a term has one leader, elected with one log -/
  elected : ∀ {i j t log log'}, (i, .effect (.becomeLeader t log)) ∈ tr →
    (j, .effect (.becomeLeader t log')) ∈ tr → i = j ∧ log = log'
  /-- what is applied at an index is one command -/
  applied : ∀ {i j index command command'}, (i, .effect (.applied index command)) ∈ tr →
    (j, .effect (.applied index command')) ∈ tr → command = command'
  /-- later leaders have what was committed -/
  complete : ∀ {i j t n t' log log'}, (i, .effect (.advanceCommit t n log)) ∈ tr →
    (j, .effect (.becomeLeader t' log')) ∈ tr → t < t' →
      n ≤ log.length ∧ log.take n <+: log'
  /-- a majority has it now, in memory and on disk -/
  held : ∀ {i t n log}, (i, .effect (.advanceCommit t n log)) ∈ tr →
    ∃ V, conf.Majority V ∧ ∀ v ∈ V, ∀ l, c.IsLog v l → log.take n <+: l
  /-- logs that agree on a term are the same up to there -/
  matching : LogsMatch conf c

/-- The logs of a refined cluster match. -/
theorem Refined.logsMatch (h : Refined conf tr c a) : LogsMatch conf c := by
  have hmatched : ∀ i ∈ conf.members, ∀ l, c.IsLog i l → Protocol.Matched a l := by
    intro i hi l hl
    rw [h.eq_of_isLog hi hl]
    exact h.sim.logInv.log_matched i
  refine ⟨fun i hi j hj l l' hl hl' => ?_, fun i hi l hl => ?_, fun i hi l hl => ?_⟩
  · exact matching_of_matched (hmatched i hi l hl) (hmatched j hj l' hl')
  · exact h.sim.indexed_log (hmatched i hi l hl)
  · rw [List.pairwise_iff_getElem]
    intro j k hj hk hjk
    exact h.sim.logInv.term_le_of_le (hmatched i hi l hl) (List.getElem?_eq_getElem hj)
      (List.getElem?_eq_getElem hk) hjk.le

/-- **Consensus is kept wherever nodes crash**: between sections, between two storage calls of one
section, or in the middle of such a call, and again while they start. -/
theorem consistent (h : Run (machine conf) Survivable tr c) : Consistent conf tr c := by
  obtain ⟨a, ha⟩ := refined_interrupted h
  have hlog := ha.sim.logInv
  have hsafe := ha.sim.safetyInv
  have hexplained : ∀ {i e}, (i, .effect e) ∈ tr → e.Explained a i := fun he =>
    ha.explained (mem_members (h.mono fun _ _ => Survivable.intact) he) (mem_effects.mpr he)
  refine
    { elected := fun hi hj => ?_
      applied := fun hi hj => ?_
      complete := fun {i j t n t' log log'} hi hj hlt => ?_
      held := fun {i t n log} hi => ?_
      matching := ha.logsMatch }
  · obtain ⟨hl, helect⟩ := hexplained hi
    obtain ⟨hl', helect'⟩ := hexplained hj
    exact ⟨Option.some.inj (hl.symm.trans hl'), helect.symm.trans helect'⟩
  · obtain ⟨t, n, e, hc, hpos, hle, he, rfl⟩ := hexplained hi
    obtain ⟨t', n', e', hc', -, hle', he', rfl⟩ := hexplained hj
    have hsame := Protocol.getElem?_commit_eq (majorities_meet conf) hlog hsafe hc hc'
      (Nat.sub_one_lt_of_le hpos hle) (Nat.sub_one_lt_of_le hpos hle')
    rw [he, he'] at hsame
    rw [Option.some.inj hsame]
  · obtain ⟨hc, htake⟩ := hexplained hi
    obtain ⟨hlead, helect⟩ := hexplained hj
    have hpre := Protocol.leaderComplete (majorities_meet conf) hlog hsafe hc hlt hlead
    have hlen := congrArg List.length htake
    rw [List.length_take, List.length_take_of_le (commit_le_leaderLog hsafe hc)] at hlen
    rw [helect, ← htake] at hpre
    exact ⟨by omega, hpre⟩
  · obtain ⟨hc, htake⟩ := hexplained hi
    obtain ⟨V, hV, hheld⟩ := Protocol.committed_held (majorities_meet conf) hlog hsafe hc
    refine ⟨V, hV, fun v hv l hl => ?_⟩
    rw [ha.eq_of_isLog (hV.1 hv) hl, htake]
    exact hheld v hv

/-- `Survivable`, decided; of crashes only those that cut no `updateMetaData` short and whose start
succeeds at once. -/
def survives (c : Cluster) : Action → Bool
  | .crashIn i g p [] => c.admits (.run i g) && p.calls ≠ 1
  | .crashIn _ _ _ (_ :: _) => false
  | x => c.admits x

theorem survivable_of_survives (c : Cluster) (x : Action) (h : c.survives x = true) :
    c.Survivable x := by
  rcases x with ⟨i, g⟩ | ⟨i, retries⟩ | ⟨i, g, p, _ | _⟩ | p
  · exact admissible_of_admits c (.run i g) h
  · exact admissible_of_admits c (.crash i retries) h
  · simp only [survives, Bool.and_eq_true, decide_eq_true_eq] at h
    have hadm := admissible_of_admits c _ h.1
    exact ⟨hadm, hadm.intact, fun _ _ _ _ _ => ⟨fun htorn => h.2 htorn.1, trivial⟩⟩
  · exact absurd h (by simp [survives])
  · trivial

/-- Node 1 wins an election and crashes before it has written an entry.  Node 2 wins the next one
and takes a value; node 3 crashes after it has stored it and before it says so, and once more
between applying the first entry and the second. -/
theorem consistent_interrupted : ∃ tr c, Run (machine .three) Survivable tr c ∧
    Consistent .three tr c ∧ .becomeLeader 1 [] ∈ effects 1 tr ∧
    .advanceCommit 2 2 [⟨2, 1, .noop⟩, ⟨2, 2, (Request.put [107] [118]).command⟩] ∈ effects 2 tr ∧
    .applied 2 (Request.put [107] [118]).command ∈ effects 3 tr ∧
    (c.hosts 1).boot = 1 ∧ (c.hosts 3).boot = 2 := by
  let put : LogEntry := ⟨2, 2, (Request.put [107] [118]).command⟩
  let both : AppendEntriesArgs := ⟨2, 2, 0, 0, [⟨2, 1, .noop⟩, put], 0⟩
  obtain ⟨tr, c, hrun, h⟩ := Run.exists_of_exec survivable_of_survives (M := machine .three)
    (fun c tr => decide (.becomeLeader 1 [] ∈ effects 1 tr ∧
      .advanceCommit 2 2 [⟨2, 1, .noop⟩, put] ∈ effects 2 tr ∧
      .applied 2 put.command ∈ effects 3 tr ∧ (c.hosts 1).boot = 1 ∧ (c.hosts 3).boot = 2))
    ((campaign 1 2 1 0 0).dropLast ++
      [.crashIn 1 (.packet (.requestVoteReply 1 0 2 1 ⟨1, true⟩)) ⟨1, 0⟩ []] ++
      campaign 2 3 2 0 0 ++ [.run 2 (.thread (.propose (.put [107] [118])))] ++
      exchange 2 3 ⟨2, 2, 1, 2, [put], 0⟩ false ++
      [.run 2 (.thread (.replicate 3)),
        .crashIn 3 (.packet (.appendEntries 2 0 3 both)) ⟨1, 0⟩ []] ++
      exchange 2 3 both true ++
      [.run 2 (.thread (.replicate 3)),
        .crashIn 3 (.packet (.appendEntries 2 0 3 ⟨2, 2, 2, 2, [], 2⟩)) ⟨2, 0⟩ []] ++
      exchange 2 3 ⟨2, 2, 2, 2, [], 2⟩ true)
    (by decide +kernel)
  obtain ⟨h1, h2, h3, h4, h5⟩ := of_decide_eq_true h
  exact ⟨tr, c, hrun, consistent hrun, h1, h2, h3, h4, h5⟩

end Cluster

end RaftConsensus
