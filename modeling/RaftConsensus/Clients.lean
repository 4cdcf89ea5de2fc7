import RaftConsensus.Proposals

/-!
# What clients are told

`proposeAndWait` remembers the index and the term of the entry that it has appended.  After
the wait it looks at the role and compares the index with the commit index; it looks neither
at the term nor at the entry.  So it depends on what happened during the wait whether its
answer is right:

* `acknowledged_committed`: in an orderly run, an OK is for an entry that is committed, and
  applied where the client is told so.
* `read_current`: in an orderly run, a read sees all that was committed before it.
* `acknowledged_lost`, `read_stale`: a node whose log was rewritten while a client waited
  wins again, and the client gets an OK for an entry that is gone, or an old value.
-/

namespace RaftConsensus

/-- The client is told that its request has taken effect. -/
def Answer.isResult : Answer → Bool
  | value _ | notFound | ok _ _ => true
  | _ => false

namespace Server

variable {s : Server} {w : Waiter}

/-- **Who gives a result**: a leader whose commit index has reached the index. -/
theorem answer_isResult (h : (s.answer w).isResult = true) :
    s.role = .leader ∧ w.index ≤ s.metadata.commitIndex ∧ s.answer w =
      match w.request with
      | .get key => if s.stateMachine.has key then .value (s.stateMachine.get key) else .notFound
      | _ => .ok w.index w.term := by
  rcases hrun : s.running with _ | _
  · exact absurd h (by simp [answer, hrun, Answer.isResult])
  by_cases hwait : s.metadata.commitIndex < w.index ∨ s.role ≠ .leader
  · rw [answer, hrun, if_neg (by simp), if_pos hwait] at h
    split at h
    · rw [notLeaderMsg] at h
      split at h <;> exact absurd h (by simp [Answer.isResult])
    · exact absurd h (by simp [Answer.isResult])
  · obtain ⟨hle, hrole⟩ := not_or.mp hwait
    refine ⟨not_not.mp hrole, not_lt.mp hle, ?_⟩
    rcases hreq : w.request with ⟨key, value⟩ | key | key <;> simp [answer, hrun, hwait, hreq]

/-- An OK names the index and the term that the thread remembers. -/
theorem answer_eq_ok {index term : ℕ} (h : s.answer w = .ok index term) :
    index = w.index ∧ term = w.term := by
  obtain ⟨-, -, heq⟩ := answer_isResult (s := s) (w := w) (by rw [h]; rfl)
  rw [h] at heq
  split at heq
  · split at heq <;> exact absurd heq (by simp)
  · obtain ⟨rfl, rfl⟩ := Answer.ok.inj heq
    exact ⟨rfl, rfl⟩

end Server

namespace Cluster

variable {conf : Config} {c : Cluster} {tr : List (ℕ × Node.Event)} {a : Abstract}

/-! ## The moment of an answer -/

/-- A commit of the protocol stands in the trace. -/
theorem Refined.exists_mark (h : Refined conf tr c a) {t n : ℕ} (hc : (t, n) ∈ a.commits) :
    ∃ j log, (j, .effect (.advanceCommit t n log)) ∈ tr ∧
      log.take n = (a.leaderLog t).take n := by
  obtain ⟨j, hj, log, hmark⟩ := h.sim.marked hc
  rw [(h.mirrored j hj).clean, List.append_nil] at hmark
  exact ⟨j, log, mem_effects.mp hmark, (h.explained hj hmark).2⟩

/-- The cluster `c₁` right after event `k` of the trace, in which node `i` answers to a thread. -/
structure AnsweredAt (conf : Config) (tr : List (ℕ × Node.Event)) (k i : ℕ) (w : Waiter)
    (answer : Answer) (s : Server) (tr₁ : List (ℕ × Node.Event)) (c₁ : Cluster) (a : Abstract) :
    Prop where
  run : Run (machine conf) Orderly tr₁ c₁
  attended : Attended conf tr₁ c₁ a
  member : i ∈ conf.members
  server : (c₁.hosts i).server = { s with effects := [] }
  answer_eq : answer = s.answer w
  pos : 0 < w.index
  keeps : s.role = .leader → s.Keeps w
  lt : k < tr₁.length
  isPrefix : tr₁ <+: tr
  /-- what the section has done, it has done before -/
  before : ∀ {j e}, (j, .effect e) ∈ tr₁ → (j, .effect e) ∈ tr.take k

theorem exists_answeredAt (h : Run (machine conf) Orderly tr c) {k i : ℕ} {w : Waiter}
    {answer : Answer} {s : Server} (hk : tr[k]? = some (i, .output (.answered w answer s))) :
    ∃ tr₁ c₁ a, AnsweredAt conf tr k i w answer s tr₁ c₁ a := by
  obtain ⟨tr₀, c₀, x, c₁, evs, l, hrun, hord, hs, hl, rfl, r, rfl⟩ := h.exists_step hk
  obtain ⟨a₀, h₀⟩ := attended hrun
  obtain ⟨a₁, hg, h₁⟩ := h₀.step hrun hord hs
  have hlt := (List.getElem?_eq_some_iff.mp hl).1
  cases step_moves hs with
  | run i' g x net m os hi hfetch hm =>
    obtain ⟨rfl, hmem, hle⟩ := output_of_tag hl
    obtain ⟨rfl, hans, hw⟩ := (Node.handle_serves hm).of_answered hmem
    obtain ⟨hpos, hkeeps⟩ := h₀.keeps hi hord hfetch hm hg h₁.refined (Function.update_self ..)
      (hw.imp_left And.left)
    refine ⟨_, _, a₁, hrun.next hord hs, h₁, hi, ?_, hans, hpos, hkeeps, ?_, List.prefix_append _ _, fun he => ?_⟩
    · dsimp only
      rw [Function.update_self]
      rfl
    · rw [List.length_append]
      omega
    · rw [List.append_assoc, List.take_length_add_append, List.take_append_of_le_length hlt.le]
      rcases List.mem_append.mp he with he | he
      · exact List.mem_append_left _ he
      · exact List.mem_append_right _ (effect_mem_take hle he)
  | crash i' retries hi => exact absurd (List.mem_of_getElem? hl) (by simp [tag])
  | crashIn i' g p retries x net m os hi hfetch hm => exact absurd hord.admissible id
  | lose p hp => exact absurd hl (by simp)

/-! ## What a trace tells -/

/-- The thread that has come with event `k`, and its node. -/
def proposalAt (tr : List (ℕ × Node.Event)) (k : ℕ) : Option (ℕ × Waiter) :=
  match tr[k]? with
  | some (i, .output (.proposed w)) => some (i, w)
  | _ => none

/-- The thread that is answered with event `k`, its node, and the node's log and last applied
index. -/
def answerAt (tr : List (ℕ × Node.Event)) (k : ℕ) :
    Option (ℕ × Waiter × Answer × List LogEntry × ℕ) :=
  match tr[k]? with
  | some (i, .output (.answered w answer s)) =>
    some (i, w, answer, s.logEntries, s.metadata.lastApplied)
  | _ => none

/-- `Orderly`, decided as far as `admits` is. -/
def serves (c : Cluster) (x : Action) : Bool := c.admits x && decide (c.NoOrphans x)

theorem orderly_of_serves (c : Cluster) (x : Action) (h : c.serves x = true) : c.Orderly x := by
  obtain ⟨hadm, hclients⟩ := Bool.and_eq_true_iff.mp h
  exact ⟨admissible_of_admits c x hadm, of_decide_eq_true hclients⟩

theorem of_proposalAt {k i : ℕ} {w : Waiter} (h : proposalAt tr k = some (i, w)) :
    tr[k]? = some (i, .output (.proposed w)) := by
  unfold proposalAt at h
  split at h
  · next hk =>
    obtain ⟨rfl, rfl⟩ := Prod.mk.inj (Option.some.inj h)
    exact hk
  · exact absurd h (by simp)

theorem of_answerAt {k i n : ℕ} {w : Waiter} {answer : Answer} {log : List LogEntry}
    (h : answerAt tr k = some (i, w, answer, log, n)) :
    ∃ s, tr[k]? = some (i, .output (.answered w answer s)) ∧ s.logEntries = log ∧
      s.metadata.lastApplied = n := by
  unfold answerAt at h
  split at h
  · next s hk =>
    simp only [Option.some.injEq, Prod.mk.injEq] at h
    obtain ⟨rfl, rfl, rfl, hlog, hn⟩ := h
    exact ⟨s, hk, hlog, hn⟩
  · exact absurd h (by simp)

/-! ## Acknowledged means committed -/

/-- The entry of the thread is in the server's log, applied, and committed. -/
structure Served (past : List (ℕ × Node.Event)) (w : Waiter) (s : Server) : Prop where
  entry : s.logEntries[w.index - 1]? = some ⟨w.term, w.index, w.request.command⟩
  pos : 0 < w.index
  applied : w.index ≤ s.metadata.lastApplied
  committed : ∃ j t n log, (j, .effect (.advanceCommit t n log)) ∈ past ∧ w.index ≤ n ∧
    log[w.index - 1]? = some ⟨w.term, w.index, w.request.command⟩

/-- The entry behind a result has been committed. -/
theorem AnsweredAt.exists_commit {k i : ℕ} {w : Waiter} {answer : Answer} {s : Server}
    {tr₁ : List (ℕ × Node.Event)} {c₁ : Cluster}
    (h : AnsweredAt conf tr k i w answer s tr₁ c₁ a) (hres : answer.isResult = true) :
    s.metadata.lastApplied = a.commit i ∧ w.index ≤ a.commit i ∧ s.Keeps w ∧
      ∃ t n, (t, n) ∈ a.commits ∧ w.index ≤ n ∧ (a.leaderLog t)[w.index - 1]? = some w.entry := by
  have href := h.attended.refined.refines h.member
  rw [h.server] at href
  rw [h.answer_eq] at hres
  obtain ⟨hrole, hle, -⟩ := Server.answer_isResult hres
  have hkeeps := h.keeps hrole
  have hcommit : w.index ≤ a.commit i := href.commit ▸ hle
  refine ⟨href.lastApplied, hcommit, hkeeps, ?_⟩
  refine h.attended.refined.committed h.pos hcommit ?_
  rw [← href.log]
  exact hkeeps

/-- **Acknowledged means committed.**  An OK of an orderly run is for the entry that the thread
has appended, and this entry is in the log of the node, applied, and committed. -/
theorem acknowledged_committed (h : Run (machine conf) Orderly tr c) {k i index term : ℕ}
    {w : Waiter} {s : Server}
    (hk : tr[k]? = some (i, .output (.answered w (.ok index term) s))) :
    index = w.index ∧ term = w.term ∧ Served (tr.take k) w s := by
  obtain ⟨tr₁, c₁, a, hat⟩ := exists_answeredAt h hk
  obtain ⟨hidx, hterm⟩ := Server.answer_eq_ok hat.answer_eq.symm
  obtain ⟨happ, hle, hkeeps, t, n, hc, hn, he⟩ := hat.exists_commit rfl
  obtain ⟨j, log, hmark, hlog⟩ := hat.attended.refined.exists_mark hc
  refine ⟨hidx, hterm, hkeeps, hat.pos, happ ▸ hle, j, t, n, log, hat.before hmark, hn, ?_⟩
  have hpos := hat.pos
  rw [getElem?_eq_of_take_eq hlog (by omega)]
  exact he

/-- Node 1 loses its leadership while a client waits, and wins it back with the entry. -/
theorem acknowledged_committed_put : ∃ tr c k s, Run (machine .three) Orderly tr c ∧
    tr[k]? = some (1, .output (.answered ⟨.put [107] [118], 2, 1⟩ (.ok 2 1) s)) ∧
    2 = 2 ∧ 1 = 1 ∧
      Served (tr.take k) ⟨.put [107] [118], 2, 1⟩ s := by
  let put : LogEntry := ⟨1, 2, (Request.put [107] [118]).command⟩
  obtain ⟨tr, c, hrun, h⟩ := Run.exists_of_exec orderly_of_serves (M := machine .three)
    (fun _ tr => decide (answerAt tr 56 = some (1, ⟨.put [107] [118], 2, 1⟩, .ok 2 1,
      [⟨1, 1, .noop⟩, ⟨1, 2, (Request.put [107] [118]).command⟩, ⟨3, 3, .noop⟩], 3)))
    (firstLeader ++ [.run 1 (.thread (.propose (.put [107] [118])))] ++
      deliver 1 2 ⟨1, 1, 1, 1, [put], 1⟩ ++ campaign 2 3 2 2 1 ++
      exchange 2 1 ⟨2, 2, 3, 2, [], 1⟩ false ++ campaign 1 3 3 2 1 ++
      exchange 1 2 ⟨3, 1, 3, 3, [], 1⟩ false ++
      exchange 1 2 ⟨3, 1, 2, 1, [⟨3, 3, .noop⟩], 1⟩ true ++
      [.run 1 (.thread (.wake ⟨.put [107] [118], 2, 1⟩ false))])
    (by decide +kernel)
  obtain ⟨s, hk, hlog, -⟩ := of_answerAt (of_decide_eq_true h)
  exact ⟨tr, c, 56, s, hrun, hk, acknowledged_committed hrun hk⟩

/-- **Acknowledged and lost.**  While a client of node 1 waits, node 2 rewrites the log of node 1,
and node 1 wins again: the client is told OK for its entry when there is another one in its
place. -/
theorem acknowledged_lost : ∃ tr c k s, Run (machine .three) Admissible tr c ∧
    tr[k]? = some (1, .output (.answered ⟨.put [107] [118], 2, 1⟩ (.ok 2 1) s)) ∧
    s.logEntries = [⟨2, 1, .noop⟩, ⟨3, 2, .noop⟩] ∧
    ¬ Served (tr.take k) ⟨.put [107] [118], 2, 1⟩ s := by
  obtain ⟨tr, c, hrun, h⟩ := Run.exists_of_exec admissible_of_admits (M := machine .three)
    (fun _ tr => decide (answerAt tr 44 = some (1, ⟨.put [107] [118], 2, 1⟩, .ok 2 1,
      [⟨2, 1, .noop⟩, ⟨3, 2, .noop⟩], 2)))
    (campaign 1 2 1 0 0 ++ [.run 1 (.thread (.propose (.put [107] [118])))] ++
      campaign 2 3 2 0 0 ++ exchange 2 1 ⟨2, 2, 1, 2, [], 0⟩ false ++
      deliver 2 1 ⟨2, 2, 0, 0, [⟨2, 1, .noop⟩], 0⟩ ++ campaign 1 2 3 1 2 ++
      exchange 1 2 ⟨3, 1, 2, 3, [], 0⟩ false ++
      exchange 1 2 ⟨3, 1, 1, 2, [⟨3, 2, .noop⟩], 0⟩ true ++
      [.run 1 (.thread (.wake ⟨.put [107] [118], 2, 1⟩ false))])
    (by decide +kernel)
  obtain ⟨s, hk, hlog, -⟩ := of_answerAt (of_decide_eq_true h)
  refine ⟨tr, c, 44, s, hrun, hk, hlog, fun hserved => ?_⟩
  have hentry := hserved.entry
  rw [hlog] at hentry
  exact absurd hentry (by decide)

/-! ## Reads -/

/-- The server has applied all that was committed before, and its log starts with it. -/
structure Current (past : List (ℕ × Node.Event)) (s : Server) : Prop where
  applied : ∀ n, CommittedUpTo past n → n ≤ s.metadata.lastApplied
  log : ∀ j t n log, (j, .effect (.advanceCommit t n log)) ∈ past →
    s.logEntries.take n = log.take n
  stateMachine : s.stateMachine = .replay (s.logEntries.take s.metadata.lastApplied)

/-- **Linearizable reads.**  In an orderly run, a read that gets an answer reads a state machine to
which all has been applied that any node had committed before the read. -/
theorem read_current (h : Run (machine conf) Orderly tr c) {j k i : ℕ} {w : Waiter}
    {answer : Answer} {s : Server} {key : Bytes}
    (hj : tr[j]? = some (i, .output (.proposed w)))
    (hk : tr[k]? = some (i, .output (.answered w answer s))) (hjk : j < k)
    (hget : w.request = .get key) (hres : answer.isResult = true) :
    Current (tr.take j) s ∧
      answer = if s.stateMachine.has key then .value (s.stateMachine.get key) else .notFound := by
  obtain ⟨tr₁, c₁, a, hat⟩ := exists_answeredAt h hk
  have href := hat.attended.refined.refines hat.member
  rw [hat.server] at href
  obtain ⟨happ, hle, hkeeps, t, n, hc, hn, he⟩ := hat.exists_commit hres
  have hlt := hjk.trans hat.lt
  obtain ⟨r, rfl⟩ := hat.isPrefix
  rw [List.getElem?_append_left hlt] at hj
  rw [List.take_append_of_le_length hlt.le]
  -- another entry in the place of this one has not been committed
  have hplace : ¬ Replaced a w := by
    rintro ⟨t', n', e, hc', hn', he', hne⟩
    have hpos := hat.pos
    have hsame := Protocol.getElem?_commit_eq (majorities_meet conf) hat.attended.refined.sim.logInv
      hat.attended.refined.sim.safetyInv hc hc' (k := w.index - 1) (by omega) (by omega)
    rw [he, he'] at hsame
    exact hne (by rw [← Option.some.inj hsame]; rfl)
  have hbound : ∀ n, CommittedUpTo (tr₁.take j) n → n ≤ a.commit i := fun n hcom =>
    ((hat.attended.fenced hj hcom).resolve_right hplace).trans hle
  refine ⟨⟨fun n hcom => happ ▸ hbound n hcom, fun v t' n' log hmark => ?_, ?_⟩, ?_⟩
  · have hexp := hat.attended.refined.explained_mem (hat.run.mono fun _ _ => Orderly.admissible)
      (List.mem_of_mem_take hmark)
    have hn' := hbound n' ⟨v, Or.inl ⟨t', log, hmark⟩⟩
    rw [hexp.2, ← hat.attended.refined.take_eq_of_commit hexp.1 le_rfl hn', ← href.log]
  · rw [happ, href.log]
    exact href.stateMachine
  · rw [hat.answer_eq] at hres ⊢
    obtain ⟨-, -, heq⟩ := Server.answer_isResult hres
    rw [heq, hget]

/-- A value is stored, and then read. -/
theorem read_current_get : ∃ tr c s, Run (machine .three) Orderly tr c ∧
    (1, .effect (.advanceCommit 1 2 [⟨1, 1, .noop⟩, ⟨1, 2, (Request.put [107] [118]).command⟩])) ∈
      tr.take 29 ∧
    tr[39]? = some (1, .output (.answered ⟨.get [107], 3, 1⟩ (.value [118]) s)) ∧
    Current (tr.take 29) s ∧ Answer.value [118] =
      if s.stateMachine.has [107] then .value (s.stateMachine.get [107]) else .notFound := by
  let put : LogEntry := ⟨1, 2, (Request.put [107] [118]).command⟩
  let get : LogEntry := ⟨1, 3, (Request.get [107]).command⟩
  obtain ⟨tr, c, hrun, h⟩ := Run.exists_of_exec orderly_of_serves (M := machine .three)
    (fun _ tr => decide (.advanceCommit 1 2
        [⟨1, 1, .noop⟩, ⟨1, 2, (Request.put [107] [118]).command⟩] ∈ effects 1 (tr.take 29) ∧
      proposalAt tr 29 = some (1, ⟨.get [107], 3, 1⟩) ∧
      answerAt tr 39 = some (1, ⟨.get [107], 3, 1⟩, .value [118],
        [⟨1, 1, .noop⟩, ⟨1, 2, (Request.put [107] [118]).command⟩,
          ⟨1, 3, (Request.get [107]).command⟩], 3)))
    (firstLeader ++ [.run 1 (.thread (.propose (.put [107] [118])))] ++
      exchange 1 2 ⟨1, 1, 1, 1, [put], 1⟩ true ++ [.run 1 (.thread (.propose (.get [107])))] ++
      exchange 1 2 ⟨1, 1, 2, 1, [get], 2⟩ true ++
      [.run 1 (.thread (.wake ⟨.get [107], 3, 1⟩ false))])
    (by decide +kernel)
  obtain ⟨hmark, hprop, hans⟩ := of_decide_eq_true h
  obtain ⟨s, hk, -⟩ := of_answerAt hans
  exact ⟨tr, c, s, hrun, mem_effects.mp hmark, hk,
    read_current hrun (of_proposalAt hprop) hk (by decide) rfl rfl⟩

/-- **A stale read.**  Node 2 commits a value for a key, and then node 1, which leads an old term
still, takes a read of it.  Node 3 rewrites the log of node 1 with all that is committed, but
tells it of the first two entries only; node 1 wins again, and answers that the key is not
found. -/
theorem read_stale : ∃ tr c j k s, Run (machine .three) Admissible tr c ∧
    (2, .effect (.advanceCommit 2 3 [⟨2, 1, .noop⟩, ⟨2, 2, (Request.put [120] [121]).command⟩,
      ⟨2, 3, (Request.put [107] [118]).command⟩])) ∈ tr.take j ∧
    tr[j]? = some (1, .output (.proposed ⟨.get [107], 2, 1⟩)) ∧
    tr[k]? = some (1, .output (.answered ⟨.get [107], 2, 1⟩ .notFound s)) ∧ j < k ∧
    ¬ Current (tr.take j) s := by
  let put : LogEntry := ⟨2, 2, (Request.put [120] [121]).command⟩
  let put' : LogEntry := ⟨2, 3, (Request.put [107] [118]).command⟩
  obtain ⟨tr, c, hrun, h⟩ := Run.exists_of_exec admissible_of_admits (M := machine .three)
    (fun _ tr => decide (.advanceCommit 2 3 [⟨2, 1, .noop⟩,
        ⟨2, 2, (Request.put [120] [121]).command⟩, ⟨2, 3, (Request.put [107] [118]).command⟩] ∈
          effects 2 (tr.take 44) ∧
      proposalAt tr 44 = some (1, ⟨.get [107], 2, 1⟩) ∧
      answerAt tr 79 = some (1, ⟨.get [107], 2, 1⟩, .notFound,
        [⟨2, 1, .noop⟩, ⟨2, 2, (Request.put [120] [121]).command⟩,
          ⟨2, 3, (Request.put [107] [118]).command⟩, ⟨3, 4, .noop⟩, ⟨4, 5, .noop⟩], 2)))
    (campaign 1 2 1 0 0 ++ campaign 2 3 2 0 0 ++
      [.run 2 (.thread (.propose (.put [120] [121])))] ++
      exchange 2 3 ⟨2, 2, 1, 2, [put], 0⟩ false ++
      exchange 2 3 ⟨2, 2, 0, 0, [⟨2, 1, .noop⟩, put], 0⟩ true ++ deliver 2 3 ⟨2, 2, 2, 2, [], 2⟩ ++
      [.run 2 (.thread (.propose (.put [107] [118])))] ++ exchange 2 3 ⟨2, 2, 2, 2, [put'], 2⟩ true ++
      [.run 1 (.thread (.propose (.get [107])))] ++
      campaign 3 2 3 3 2 ++ exchange 3 1 ⟨3, 3, 4, 3, [], 2⟩ false ++
      exchange 3 1 ⟨3, 3, 3, 2, [⟨3, 4, .noop⟩], 2⟩ false ++
      exchange 3 1 ⟨3, 3, 2, 2, [put', ⟨3, 4, .noop⟩], 2⟩ false ++
      exchange 3 1 ⟨3, 3, 1, 2, [put, put', ⟨3, 4, .noop⟩], 2⟩ false ++
      deliver 3 1 ⟨3, 3, 0, 0, [⟨2, 1, .noop⟩, put, put', ⟨3, 4, .noop⟩], 2⟩ ++
      campaign 1 3 4 4 3 ++ [.run 1 (.thread (.wake ⟨.get [107], 2, 1⟩ false))])
    (by decide +kernel)
  obtain ⟨hmark, hprop, hans⟩ := of_decide_eq_true h
  obtain ⟨s, hk, -, happ⟩ := of_answerAt hans
  have hmark := mem_effects.mp hmark
  refine ⟨tr, c, 44, 79, s, hrun, hmark, of_proposalAt hprop, hk, by decide, fun hcurrent => ?_⟩
  have hle := hcurrent.applied 3 ⟨2, Or.inl ⟨2, _, hmark⟩⟩
  omega

end Cluster

end RaftConsensus
