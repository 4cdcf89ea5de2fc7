import RaftConsensus.Safety

/-!
# Who wakes the waiting clients

A client thread sleeps in `proposeAndWait` until the server stops, has lost the lead, or has
committed its entry.  It looks at this predicate when `commit_cv` is notified, and again when its
three seconds are over.

`commit_cv.notify_all` is called where the commit index is raised, in `advanceCommit` and in
`handleAppendEntries`, and at the end of `run`.  `stepDown` does not call it, and
`handleAppendEntries` makes a follower of a leader with or without raising the commit index.
So the clients of a leader that yields to a higher term are not woken, unless the message
that makes it yield raises the commit index as well (`woken_iff`).  In a run in which no lead is
lost that way, every thread whose wait is over was notified since it began to wait (`awake`).
-/

namespace RaftConsensus

/-! ## Stretches under the lock -/

/-- Whether the source calls `commit_cv.notify_all` where the mark stands. -/
def Effect.notifies : Effect → Bool
  | advanceCommit .. | followCommit _ => true
  | _ => false

/-- Whether the clients were notified, as far as the effects go. -/
def Server.notified (s : Server) : Bool := s.effects.any Effect.notifies

/-- What changes the predicate of a waiting client: a critical section, or the end of `run`. -/
inductive Stretch
  | critical (x : Input)
  | shutdown
  deriving DecidableEq, Repr

/-- The node after the stretch, and whether it notifies the clients. -/
def Node.stretch (n : Node) : Stretch → Option (Node × Bool)
  | .critical x => (n.handle x).map fun r => (r.1, r.1.server.notified)
  | .shutdown => some ({ n with server := { n.server with running := false } }, true)

namespace Server

/-- The request passes the log check, and its commit index, the index of its last entry and the last
index of the merged log are beyond the commit index. -/
def raises (s : Server) (args : AppendEntriesArgs) : Bool :=
  s.prevMatches args &&
    match reconcile s.logEntries false args.entries with
    | none => false
    | some (log, _) =>
      decide (s.metadata.commitIndex <
        min (min args.leaderCommit ((args.prevLogIndex + args.entries.length) % 2 ^ 64))
          ((log.getLast?.map LogEntry.index).getD 0))

/-- The stretch takes the lead from the server without raising its commit index. -/
def YieldsSilently (s : Server) : Stretch → Prop
  | .critical (.requestVote args) => s.metadata.currentTerm < args.term
  | .critical (.requestVoteReply _ reply) => s.metadata.currentTerm < reply.term
  | .critical (.appendEntriesReply _ _ reply) => s.metadata.currentTerm < reply.term
  | .critical (.appendEntries args) =>
    s.metadata.currentTerm ≤ args.term ∧ s.raises args = false
  | _ => False

/-! ## Raising the commit index -/

variable {s s' : Server}

theorem notified_emit (s : Server) (e : Effect) :
    (s.emit e).notified = (s.notified || e.notifies) := by
  simp [notified, emit]

theorem notified_applyCommitted (s : Server) : s.applyCommitted.notified = s.notified := by
  have hmarks : ∀ k es, (appliedMarks k es).any Effect.notifies = false := by
    intro k es
    rw [List.any_eq_false]
    intro e he
    obtain ⟨index, command, rfl⟩ := mem_appliedMarks he
    simp [Effect.notifies]
  rw [applyCommitted_eq]
  split
  · rfl
  · simp [notified, persistMetaData, emit, applied, hmarks, Effect.notifies]

/-- The role stays, and the clients are notified if the commit index moves. -/
structure Attentive (s s' : Server) : Prop where
  running : s'.running = s.running
  role : s'.role = s.role
  notified : s'.metadata.commitIndex ≠ s.metadata.commitIndex → s'.notified = true

/-- A section that leaves role and commit index alone has nothing to tell the clients. -/
theorem attentive_of_same (hrunning : s'.running = s.running) (hrole : s'.role = s.role)
    (hcommit : s'.metadata.commitIndex = s.metadata.commitIndex) : Attentive s s' :=
  ⟨hrunning, hrole, fun hne => absurd hcommit hne⟩

/-- What was done before leaves role and commit index alone. -/
theorem Attentive.of_same {s₀ : Server} (h : Attentive s s') (hrunning : s.running = s₀.running)
    (hrole : s.role = s₀.role) (hcommit : s.metadata.commitIndex = s₀.metadata.commitIndex) :
    Attentive s₀ s' :=
  ⟨h.running.trans hrunning, h.role.trans hrole, hcommit ▸ h.notified⟩

theorem advanceCommit_attentive (s : Server) : Attentive s s.advanceCommit := by
  rcases advanceCommit_cases s with heq | ⟨n, -, -, heq⟩
  · rw [heq]
    exact attentive_of_same rfl rfl rfl
  · rw [heq, commitTo]
    refine ⟨?_, ?_, fun _ => ?_⟩
    · rw [applyCommitted_eq]
      split <;> rfl
    · rw [applyCommitted_eq]
      split <;> rfl
    · rw [notified_applyCommitted, notified_emit]
      simp [Effect.notifies]

theorem propose_attentive {request : Request} {w : Waiter} (h : s.propose request = some (w, s')) :
    Attentive s s' := by
  obtain ⟨-, -, hs'⟩ := propose_eq h
  rw [hs']
  exact (advanceCommit_attentive _).of_same rfl rfl rfl

theorem creditPeer_attentive (s : Server) (peer : ℕ) (args : AppendEntriesArgs) :
    Attentive s (s.creditPeer peer args) := by
  rw [creditPeer_eq]
  exact (advanceCommit_attentive _).of_same rfl rfl rfl

/-! ## Yielding the lead -/

/-- A section goes on leading and notifies on a commit, or it yields, and notifies unless it does so
silently. -/
inductive Ends (s s' : Server) (silent : Prop) : Prop
  | leads (h : Attentive s s') (hloud : ¬ silent)
  | yields (h : s'.role = .follower) (hiff : s'.notified = true ↔ ¬ silent)

/-- A server that steps down notifies nobody. -/
theorem stepDown_ends (hquiet : s.notified = false) (t : ℕ) {silent : Prop} (hsilent : silent) :
    Ends s (s.stepDown t) silent := by
  have hnotified : (s.stepDown t).notified = false := by
    rw [stepDown, persistMetaData, notified_emit, ← hquiet]
    simp [Effect.notifies, notified]
  refine .yields rfl ?_
  rw [hnotified]
  exact ⟨fun h => absurd h (by simp), fun h => absurd hsilent h⟩

theorem handleRequestVote_ends (hquiet : s.notified = false) (args : RequestVoteArgs) :
    Ends s (s.handleRequestVote args).2 (s.metadata.currentTerm < args.term) := by
  generalize hr : s.handleRequestVote args = r
  by_cases hterm : s.metadata.currentTerm < args.term
  · have hmeet : s.meetTerm args.term = s.stepDown args.term := if_pos hterm
    cases stepDown_ends hquiet args.term hterm with
    | leads _ hloud => exact absurd hterm hloud
    | yields hrole hiff =>
      rw [← hmeet] at hrole hiff
      cases handleRequestVote_way hr with
      | old hold => exact absurd hold hterm.not_gt
      | granted =>
        refine .yields hrole ?_
        rw [← hiff, grantVote, notified_emit, persistMetaData, notified_emit]
        simp [Effect.notifies, notified]
      | denied => exact .yields hrole hiff
  · have hmeet : s.meetTerm args.term = s := if_neg hterm
    refine .leads ?_ hterm
    cases handleRequestVote_way hr with
    | old => exact attentive_of_same rfl rfl rfl
    | granted | denied =>
      rw [hmeet]
      exact attentive_of_same rfl rfl rfl

theorem handleRequestVoteReply_ends (hquiet : s.notified = false) (hrole : s.role = .leader) (t : ℕ)
    (reply : RequestVoteReply) :
    Ends s (s.handleRequestVoteReply t reply) (s.metadata.currentTerm < reply.term) := by
  generalize hs' : s.handleRequestVoteReply t reply = s'
  cases handleRequestVoteReply_way hs' with
  | stepsDown hterm => exact stepDown_ends hquiet reply.term hterm
  | ignored hterm => exact .leads (attentive_of_same rfl rfl rfl) hterm
  | won hterm hcand | counted hterm hcand => exact absurd (hrole.symm.trans hcand) (by simp)

theorem handleAppendEntriesReply_ends (hquiet : s.notified = false) (peer : ℕ)
    (args : AppendEntriesArgs) (reply : AppendEntriesReply) :
    Ends s (s.handleAppendEntriesReply peer args reply) (s.metadata.currentTerm < reply.term) := by
  generalize hs' : s.handleAppendEntriesReply peer args reply = s'
  cases handleAppendEntriesReply_way hs' with
  | stepsDown hterm =>
    have hreached : (s.reached peer).notified = false := hquiet
    cases stepDown_ends hreached reply.term hterm with
    | leads _ hloud => exact absurd hterm hloud
    | yields hrole hiff => exact .yields hrole hiff
  | ignored hterm | backed hterm => exact .leads (attentive_of_same rfl rfl rfl) hterm
  | credited hterm =>
    exact .leads ((creditPeer_attentive _ peer args).of_same rfl rfl rfl) hterm

theorem notified_recognizeLeader (s : Server) (args : AppendEntriesArgs) :
    (s.recognizeLeader args).notified = s.notified := by
  unfold recognizeLeader
  dsimp only
  split
  · simp [persistMetaData, notified, emit, Effect.notifies]
  · rfl

theorem notified_storeEntries {entries : List LogEntry} (h : s.storeEntries entries = some s') :
    s'.role = s.role ∧ s'.metadata = s.metadata ∧ s'.notified = s.notified := by
  cases storeEntries_way h with
  | same => exact ⟨rfl, rfl, rfl⟩
  | rewritten =>
    refine ⟨rfl, rfl, ?_⟩
    rw [persistLogFull, notified_emit]
    simp [Effect.notifies, notified]

theorem followCommit_yields (s : Server) (args : AppendEntriesArgs) :
    (s.followCommit args).role = s.role ∧
      (s.followCommit args).notified = (s.notified || decide (s.metadata.commitIndex <
        min (min args.leaderCommit ((args.prevLogIndex + args.entries.length) % 2 ^ 64))
          s.getLastLogIndex)) := by
  unfold followCommit
  split
  · dsimp only
    split
    · next hlt =>
      refine ⟨?_, ?_⟩
      · rw [applyCommitted_eq]
        split <;> rfl
      · rw [notified_applyCommitted, notified_emit, decide_eq_true hlt]
        simp [Effect.notifies]
    · next hge =>
      rw [decide_eq_false hge, Bool.or_false]
      exact ⟨rfl, rfl⟩
  · next hge =>
    have hlow : ¬ s.metadata.commitIndex <
        min (min args.leaderCommit ((args.prevLogIndex + args.entries.length) % 2 ^ 64))
          s.getLastLogIndex := by omega
    rw [decide_eq_false hlow, Bool.or_false]
    exact ⟨rfl, rfl⟩

/-- **An AppendEntries that is not old makes a follower**, and the clients are notified if it raises
the commit index. -/
theorem handleAppendEntries_yields {args : AppendEntriesArgs} {r : AppendEntriesReply × Server}
    (h : s.handleAppendEntries args = some r) (hterm : s.metadata.currentTerm ≤ args.term) :
    r.2.role = .follower ∧ r.2.notified = (s.notified || s.raises args) := by
  have hleader := notified_recognizeLeader s args
  have hrole : (s.recognizeLeader args).role = .follower := rfl
  cases handleAppendEntries_way h with
  | old hold => exact absurd hold hterm.not_gt
  | mismatch hnew hprev =>
    rw [prevMatches_recognizeLeader] at hprev
    refine ⟨hrole, ?_⟩
    rw [hleader, raises, Bool.eq_false_iff.mpr hprev, Bool.false_and, Bool.or_false]
  | stored hnew hprev s' hs' =>
    rw [prevMatches_recognizeLeader] at hprev
    obtain ⟨hrole', hmeta, hnotified⟩ := notified_storeEntries hs'
    obtain ⟨changed, hlog⟩ := storeEntries_eq_some hs'
    obtain ⟨hfollow, hfollowed⟩ := followCommit_yields s' args
    rw [recognizeLeader_logEntries] at hlog
    have hcommit : s'.metadata.commitIndex = s.metadata.commitIndex := by
      rw [hmeta, recognizeLeader_commitIndex]
    refine ⟨by rw [hfollow, hrole', hrole], ?_⟩
    dsimp only
    rw [hfollowed, hnotified, hleader, raises, hprev, hlog, Bool.true_and, hcommit, getLastLogIndex]

theorem handleAppendEntries_ends (hquiet : s.notified = false) {args : AppendEntriesArgs}
    {r : AppendEntriesReply × Server} (h : s.handleAppendEntries args = some r) :
    Ends s r.2 (s.metadata.currentTerm ≤ args.term ∧ s.raises args = false) := by
  by_cases hterm : s.metadata.currentTerm ≤ args.term
  · obtain ⟨hrole, hnotified⟩ := handleAppendEntries_yields h hterm
    refine .yields hrole ?_
    rw [hnotified, hquiet, Bool.false_or]
    simp [hterm]
  · refine .leads ?_ fun hsilent => hterm hsilent.1
    cases handleAppendEntries_way h with
    | old => exact attentive_of_same rfl rfl rfl
    | mismatch hnew | stored hnew => exact absurd (not_lt.mp hnew) hterm

/-! ## Blocked clients -/

theorem waitOver_eq_false {w : Waiter} :
    s.waitOver w = false ↔
      s.running = true ∧ s.role = .leader ∧ s.metadata.commitIndex < w.index := by
  simp [waitOver, and_assoc]

/-- Where the role stays, a client is only released by a commit, and notified. -/
theorem Attentive.notifies (h : Attentive s s') {w : Waiter} (hw : s.waitOver w = false)
    (hover : s'.waitOver w = true) : s'.notified = true := by
  obtain ⟨hrunning, hrole, hlt⟩ := waitOver_eq_false.mp hw
  refine h.notified fun hsame => ?_
  have hstill : s'.waitOver w = false :=
    waitOver_eq_false.mpr ⟨h.running.trans hrunning, h.role.trans hrole, by rw [hsame]; exact hlt⟩
  rw [hstill] at hover
  exact absurd hover (by simp)

/-- A blocked client that is released is notified, unless the lead is lost in silence. -/
theorem Ends.notifies_iff {silent : Prop} (h : Ends s s' silent) {w : Waiter}
    (hw : s.waitOver w = false) : (s'.waitOver w = true → s'.notified = true) ↔ ¬ silent := by
  cases h with
  | leads hlead hloud => exact ⟨fun _ => hloud, fun _ => hlead.notifies hw⟩
  | yields hrole hiff =>
    have hover : s'.waitOver w = true := by simp [waitOver, hrole]
    rw [← hiff]
    exact ⟨fun h => h hover, fun h _ => h⟩

end Server

namespace Node

variable {n m : Node} {w : Waiter}

/-- **Every section of a leader**, by the way it goes. -/
theorem handle_ends (hquiet : n.server.notified = false) (hrole : n.server.role = .leader) {x : Input}
    {os : List Output} (h : n.handle x = some (m, os)) :
    Server.Ends n.server m.server (n.server.YieldsSilently (.critical x)) := by
  cases handle_section h with
  | requestVote args => exact Server.handleRequestVote_ends hquiet args
  | appendEntries args r hr => exact Server.handleAppendEntries_ends hquiet hr
  | requestVoteReply t reply => exact Server.handleRequestVoteReply_ends hquiet hrole t reply
  | appendEntriesReply peer args reply =>
    exact Server.handleAppendEntriesReply_ends hquiet peer args reply
  | contactFailed peer => exact .leads (Server.attentive_of_same rfl rfl rfl) id
  | electionTimeout r hr =>
    rw [Server.electionTimeout, if_pos hrole] at hr
    exact absurd hr (by simp)
  | sendRequestVotes => exact .leads (Server.attentive_of_same rfl rfl rfl) id
  | replicate peer args => exact .leads (Server.attentive_of_same rfl rfl rfl) id
  | refused request hp => exact .leads (Server.attentive_of_same rfl rfl rfl) id
  | proposed request w' s' hp => exact .leads (Server.propose_attentive hp) id
  | atOnce request w' s' hp => exact .leads (Server.propose_attentive hp) id
  | wake w' timedOut hw' => exact .leads (Server.attentive_of_same rfl rfl rfl) id

/-- A thread that waits after a section waited before it, or it has just begun to, and is blocked. -/
theorem mem_waiting_or_blocked {x : Input} {os : List Output} (h : n.handle x = some (m, os))
    (hw : w ∈ m.waiting) :
    w ∈ n.waiting ∨ (.proposed w ∈ os ∧ m.server.waitOver w = false) := by
  cases handle_section h with
  | proposed request w' s' hp =>
    rcases List.mem_append.mp hw with hw | hw
    · exact Or.inl hw
    rw [handle, hp] at h
    dsimp only at h
    rw [settle] at h
    split at h
    · exact absurd (Prod.mk.inj (Option.some.inj h)).2 (by simp)
    · next hblocked =>
      rw [List.mem_singleton.mp hw]
      exact Or.inr ⟨List.mem_singleton_self _, Bool.eq_false_iff.mpr hblocked⟩
  | wake w' timedOut hw' => exact Or.inl (List.mem_of_mem_erase hw)
  | _ => exact Or.inl hw

/-- What a stretch does for a blocked client, told of the node alone. -/
theorem woken_iff_of_clean (hclean : n.server.effects = []) (hw : n.server.waitOver w = false)
    {y : Stretch} {woken : Bool} (h : n.stretch y = some (m, woken)) :
    (m.server.waitOver w = true → woken = true) ↔ ¬ n.server.YieldsSilently y := by
  cases y with
  | shutdown =>
    obtain ⟨-, rfl⟩ := Prod.mk.inj (Option.some.inj h)
    exact ⟨fun _ => id, fun _ _ => rfl⟩
  | critical x =>
    obtain ⟨⟨m', os⟩, hm, heq⟩ := Option.map_eq_some_iff.mp h
    obtain ⟨rfl, rfl⟩ := Prod.mk.inj heq
    have hquiet : n.server.notified = false := by rw [Server.notified, hclean]; rfl
    exact (handle_ends hquiet (Server.waitOver_eq_false.mp hw).2.1 hm).notifies_iff hw

end Node

/-! ## Runs -/

namespace Cluster

variable {conf : Config} {c : Cluster} {tr : List (ℕ × Node.Event)}

/-- Between two sections nothing is left to be carried out. -/
theorem effects_eq_nil (h : Run (machine conf) (fun _ _ => True) tr c) :
    ∀ i ∈ conf.members, (c.hosts i).server.effects = [] := by
  refine Run.invariant (I := fun _ c => ∀ i ∈ conf.members, (c.hosts i).server.effects = [])
    (fun _ _ => rfl) ?_ h
  intro tr c a c' evs _ hclean _ hs
  cases step_moves hs with
  | run i g x net m os hi hfetch hm =>
    exact forall_mem_update (Q := fun _ n => n.server.effects = []) rfl fun j hj _ => hclean j hj
  | crash i retries hi =>
    exact forall_mem_update (Q := fun _ n => n.server.effects = []) rfl fun j hj _ => hclean j hj
  | crashIn i g p retries x net m os hi hfetch hm =>
    exact forall_mem_update (Q := fun _ n => n.server.effects = []) rfl fun j hj _ => hclean j hj
  | lose p hp => exact hclean

/-- **Who wakes a blocked client.**  In every state that can be reached, whatever makes the predicate
of a blocked client true also notifies it, unless it takes the lead from the server without raising
the commit index; then the client is not notified. -/
theorem woken_iff (h : Run (machine conf) (fun _ _ => True) tr c) {i : ℕ} (hi : i ∈ conf.members)
    {w : Waiter} (hw : (c.hosts i).server.waitOver w = false) {y : Stretch} {m : Node} {woken : Bool}
    (hy : (c.hosts i).stretch y = some (m, woken)) :
    (m.server.waitOver w = true → woken = true) ↔ ¬ (c.hosts i).server.YieldsSilently y :=
  Node.woken_iff_of_clean (effects_eq_nil h i hi) hw hy

/-- A client of the first leader waits when the reply comes with which its entry is committed. -/
theorem woken_iff_put : ∃ tr c, ∃ (m : Node) (woken : Bool), Run (machine .three) (fun _ _ => True) tr c ∧
    ⟨.put [107] [118], 2, 1⟩ ∈ (c.hosts 1).waiting ∧ m.server.metadata.commitIndex = 2 ∧
      ((m.server.waitOver ⟨.put [107] [118], 2, 1⟩ = true → woken = true) ↔
        ¬ (c.hosts 1).server.YieldsSilently
          (.critical (.appendEntriesReply 2
            ⟨1, 1, 1, 1, [⟨1, 2, (Request.put [107] [118]).command⟩], 1⟩ ⟨1, true⟩))) := by
  let put : LogEntry := ⟨1, 2, (Request.put [107] [118]).command⟩
  let y : Stretch := .critical (.appendEntriesReply 2 ⟨1, 1, 1, 1, [put], 1⟩ ⟨1, true⟩)
  obtain ⟨tr, c, hrun, h⟩ := Run.exists_of_exec (P := fun _ _ => True) (p := fun _ _ => true)
    (M := machine .three) (fun _ _ _ => trivial)
    (fun c _ => decide ((c.hosts 1).waiting = [⟨.put [107] [118], 2, 1⟩] ∧
      (c.hosts 1).server.waitOver ⟨.put [107] [118], 2, 1⟩ = false ∧
      ((c.hosts 1).stretch y).map (fun r => r.1.server.metadata.commitIndex) = some 2))
    (firstLeader ++ [.run 1 (.thread (.propose (.put [107] [118])))])
    (by decide +kernel)
  obtain ⟨hwaiting, hw, hcommit⟩ := of_decide_eq_true h
  obtain ⟨⟨m, woken⟩, hy, hm⟩ := Option.map_eq_some_iff.mp hcommit
  exact ⟨tr, c, m, woken, hrun, by rw [hwaiting]; exact List.mem_singleton_self _, hm,
    woken_iff hrun (by decide) hw hy⟩

/-- **A client that nobody wakes.**  A client of node 1 waits when node 2 asks for its vote in the next
term: node 1 steps down, which ends the wait, and does not notify the client. -/
theorem client_not_woken : ∃ tr c, ∃ m : Node, Run (machine .three) Admissible tr c ∧
    ⟨.put [107] [118], 2, 1⟩ ∈ (c.hosts 1).waiting ∧
    (c.hosts 1).server.waitOver ⟨.put [107] [118], 2, 1⟩ = false ∧
    (∃ g net, c.fetch 1 g = some (.requestVote ⟨2, 2, 1, 1⟩, net)) ∧
    (c.hosts 1).stretch (.critical (.requestVote ⟨2, 2, 1, 1⟩)) = some (m, false) ∧
    m.server.waitOver ⟨.put [107] [118], 2, 1⟩ = true := by
  obtain ⟨tr, c, hrun, h⟩ := Run.exists_of_exec admissible_of_admits (M := machine .three)
    (fun c _ => decide ((c.hosts 1).waiting = [⟨.put [107] [118], 2, 1⟩] ∧
      (c.hosts 1).server.waitOver ⟨.put [107] [118], 2, 1⟩ = false ∧
      (c.fetch 1 (.packet (.requestVote 2 0 1 ⟨2, 2, 1, 1⟩))).map Prod.fst =
        some (.requestVote ⟨2, 2, 1, 1⟩) ∧
      ((c.hosts 1).stretch (.critical (.requestVote ⟨2, 2, 1, 1⟩))).map (fun r =>
        (r.2, r.1.server.waitOver ⟨.put [107] [118], 2, 1⟩)) = some (false, true)))
    (firstLeader ++ [.run 1 (.thread (.propose (.put [107] [118]))),
      .run 2 (.thread .electionTimeout), .run 2 (.thread .sendRequestVotes)])
    (by decide +kernel)
  obtain ⟨hwaiting, hw, hoffer, hstretch⟩ := of_decide_eq_true h
  obtain ⟨⟨x, net⟩, hfetch, rfl⟩ := Option.map_eq_some_iff.mp hoffer
  obtain ⟨⟨m, woken⟩, hy, hm⟩ := Option.map_eq_some_iff.mp hstretch
  obtain ⟨rfl, hover⟩ := Prod.mk.inj hm
  exact ⟨tr, c, m, hrun, by rw [hwaiting]; exact List.mem_singleton_self _, hw, ⟨_, net, hfetch⟩,
    hy, hover⟩

/-! ## Sleeping threads -/

/-- No section takes the lead from a server in silence. -/
def Loud (c : Cluster) : Action → Prop
  | .run i g => ∀ x net, c.fetch i g = some (x, net) → (c.hosts i).server.role = .leader →
      ¬ (c.hosts i).server.YieldsSilently (.critical x)
  | _ => True

/-- Node `i` has notified its clients after the thread had begun to wait. -/
def NotifiedSince (tr : List (ℕ × Node.Event)) (i : ℕ) (w : Waiter) : Prop :=
  ∃ before after, tr = before ++ after ∧ (i, .output (.proposed w)) ∈ before ∧
    ∃ e, (i, .effect e) ∈ after ∧ e.notifies = true

theorem NotifiedSince.append {i : ℕ} {w : Waiter} (h : NotifiedSince tr i w)
    (evs : List (ℕ × Node.Event)) : NotifiedSince (tr ++ evs) i w := by
  obtain ⟨before, after, rfl, hbegun, e, he, hnotifies⟩ := h
  exact ⟨before, after ++ evs, List.append_assoc _ _ _, hbegun, e, List.mem_append_left _ he,
    hnotifies⟩

/-- The thread has begun to wait, and was notified after that if its wait is over. -/
structure Awake (tr : List (ℕ × Node.Event)) (i : ℕ) (n : Node) (w : Waiter) : Prop where
  begun : (i, .output (.proposed w)) ∈ tr
  notified : n.server.waitOver w = true → NotifiedSince tr i w

theorem Awake.append {i : ℕ} {n : Node} {w : Waiter} (h : Awake tr i n w)
    (evs : List (ℕ × Node.Event)) : Awake (tr ++ evs) i n w :=
  ⟨List.mem_append_left _ h.begun, fun hover => (h.notified hover).append evs⟩

/-- **No wake-up is lost as long as no lead is lost in silence**: a thread that still waits when its
wait is over was notified since it began to wait. -/
theorem awake (h : Run (machine conf) Loud tr c) :
    ∀ i ∈ conf.members, ∀ w ∈ (c.hosts i).waiting, Awake tr i (c.hosts i) w := by
  refine Run.invariant
    (I := fun tr c => ∀ i ∈ conf.members, ∀ w ∈ (c.hosts i).waiting, Awake tr i (c.hosts i) w)
    (fun i _ w hw => absurd hw List.not_mem_nil) ?_ h
  intro tr c a c' evs hr hinv hloud hs
  have hold : ∀ j ∈ conf.members, ∀ w ∈ (c.hosts j).waiting,
      Awake (tr ++ evs) j (c.hosts j) w := fun j hj w hw => (hinv j hj w hw).append evs
  cases step_moves hs with
  | run i g x net m os hi hfetch hm =>
    refine forall_mem_update (Q := fun j n => ∀ w ∈ n.waiting, Awake _ j n w) ?_
      fun j hj _ => hold j hj
    intro w hw
    rcases Node.mem_waiting_or_blocked hm hw with hbefore | ⟨hnew, hblocked⟩
    · have hone := hinv i hi w hbefore
      refine ⟨List.mem_append_left _ hone.begun, fun hover => ?_⟩
      rcases hwas : (c.hosts i).server.waitOver w with _ | _
      · -- this section has ended the wait
        have hclean := effects_eq_nil (hr.mono fun _ _ _ => trivial) i hi
        have hquiet : (c.hosts i).server.notified = false := by
          rw [Server.notified, hclean]
          rfl
        have hrole := (Server.waitOver_eq_false.mp hwas).2.1
        have hends := Node.handle_ends hquiet hrole hm
        obtain ⟨e, he, hnotifies⟩ := List.any_eq_true.mp
          ((hends.notifies_iff hwas).mpr (hloud x net hfetch hrole) hover)
        refine ⟨tr, _, rfl, hone.begun, e, mem_tag.mpr ⟨rfl, ?_⟩, hnotifies⟩
        exact List.mem_append_left _ (List.mem_map_of_mem he)
      · exact (hone.notified hwas).append _
    · refine ⟨List.mem_append_right _ (mem_tag.mpr ⟨rfl, ?_⟩), fun hover => ?_⟩
      · exact List.mem_append_right _ (List.mem_map_of_mem hnew)
      · exact absurd (hblocked.symm.trans hover) (by simp)
  | crash i retries hi =>
    exact forall_mem_update (Q := fun j n => ∀ w ∈ n.waiting, Awake _ j n w)
      (fun w hw => absurd hw List.not_mem_nil) fun j hj _ => hold j hj
  | crashIn i g p retries x net m os hi hfetch hm =>
    exact forall_mem_update (Q := fun j n => ∀ w ∈ n.waiting, Awake _ j n w)
      (fun w hw => absurd hw List.not_mem_nil) fun j hj _ => hold j hj
  | lose p hp => exact hold

end Cluster

end RaftConsensus
