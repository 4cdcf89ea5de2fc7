import RaftConsensus.Redirect

/-!
# Election timers

In `Cluster` the timer thread of a member may stand for election at any time.  Here there is a
clock.  `resetElectionTimer` puts the deadline of a member 300 to 500 ms ahead, at random, and the
timer thread stands for election only when the deadline is over.  The timer is reset by a granted
vote, by an `AppendEntries` of no earlier term, by a candidacy and by a start; `stepDown` does not
reset it.

`Timed.machine` is the cluster with the deadlines of its members.  One clock stands for the steady
clocks of all of them, which run at the same rate, and the time that passes between two sections is
arbitrary.

* `Timed.run_iff`: the clock neither adds nor takes away a run of the cluster.
* `Timed.leader_stable`: a leader of the latest term that the others hear of every 300 ms leads on.
-/

namespace RaftConsensus

/-! ## What deposes a leader -/

/-- No term in the input is later than `t`, and it is no candidacy. -/
def Input.Within (t : ℕ) : Input → Prop
  | .requestVote args => args.term ≤ t
  | .appendEntries args => args.term ≤ t
  | .requestVoteReply _ reply => reply.term ≤ t
  | .appendEntriesReply _ _ reply => reply.term ≤ t
  | .electionTimeout => False
  | _ => True

namespace Server

variable {s s' : Server} {t : ℕ}

theorem meetTerm_le (hs : s.metadata.currentTerm ≤ t) {u : ℕ} (hu : u ≤ t) :
    (s.meetTerm u).metadata.currentTerm ≤ t := by
  unfold meetTerm
  split
  · exact hu
  · exact hs

theorem handleRequestVote_le (hs : s.metadata.currentTerm ≤ t) {args : RequestVoteArgs}
    (h : args.term ≤ t) : (s.handleRequestVote args).2.metadata.currentTerm ≤ t := by
  generalize hr : s.handleRequestVote args = r
  cases handleRequestVote_way hr with
  | old => exact hs
  | granted | denied => exact meetTerm_le hs h

theorem handleAppendEntries_le (hs : s.metadata.currentTerm ≤ t) {args : AppendEntriesArgs}
    (h : args.term ≤ t) {r : AppendEntriesReply × Server}
    (hr : s.handleAppendEntries args = some r) : r.2.metadata.currentTerm ≤ t := by
  cases handleAppendEntries_way hr with
  | old => exact hs
  | mismatch hnew => exact (recognizeLeader_term hnew).trans_le h
  | stored hnew hprev s' hs' =>
    obtain ⟨es, hc⟩ := s'.followCommit_commits args
    have hsteady := (storeEntries_steady hs').trans (.commits hc)
    exact (hsteady.term.trans (recognizeLeader_term hnew)).trans_le h

theorem handleRequestVoteReply_le (hs : s.metadata.currentTerm ≤ t) (electionTerm : ℕ)
    {reply : RequestVoteReply} (h : reply.term ≤ t) :
    (s.handleRequestVoteReply electionTerm reply).metadata.currentTerm ≤ t := by
  generalize hs' : s.handleRequestVoteReply electionTerm reply = s'
  cases handleRequestVoteReply_way hs' with
  | stepsDown => exact h
  | ignored | counted => exact hs
  | won => exact s.countVote.becomeLeader_frame.2.2.2.1.trans_le hs

theorem handleAppendEntriesReply_le (hs : s.metadata.currentTerm ≤ t) (peer : ℕ)
    (args : AppendEntriesArgs) {reply : AppendEntriesReply} (h : reply.term ≤ t) :
    (s.handleAppendEntriesReply peer args reply).metadata.currentTerm ≤ t := by
  by_cases hlt : s.metadata.currentTerm < reply.term
  · rw [handleAppendEntriesReply, if_pos hlt]
    exact h
  · exact (handleAppendEntriesReply_steady peer args hlt).term.trans_le hs

end Server

namespace Node

variable {n m : Node} {x : Input} {os : List Output} {t : ℕ}

/-- A section goes to no later term than it reads of, unless it is a candidacy. -/
theorem handle_le (hm : n.handle x = some (m, os)) (hn : n.server.metadata.currentTerm ≤ t)
    (hx : x.Within t) : m.server.metadata.currentTerm ≤ t := by
  cases handle_section hm with
  | requestVote args => exact Server.handleRequestVote_le hn hx
  | appendEntries args r hr => exact Server.handleAppendEntries_le hn hx hr
  | requestVoteReply u reply => exact Server.handleRequestVoteReply_le hn u hx
  | appendEntriesReply peer args reply => exact Server.handleAppendEntriesReply_le hn peer args hx
  | electionTimeout => exact absurd hx id
  | proposed request w s hp | atOnce request w s hp =>
    exact (Server.propose_steady hp).term.trans_le hn
  | contactFailed | sendRequestVotes | replicate | refused | wake => exact hn

/-- **A leader leads on** until a section deposes it. -/
theorem handle_leads (hm : n.handle x = some (m, os)) (hrole : n.server.role = .leader)
    (hx : x.deposes n.server = false) :
    m.server.role = .leader ∧ m.server.metadata.currentTerm = n.server.metadata.currentTerm := by
  have steady : n.server.Steady m.server → m.server.role = .leader ∧
      m.server.metadata.currentTerm = n.server.metadata.currentTerm := fun h =>
    ⟨h.role.trans hrole, h.term⟩
  cases handle_section hm with
  | requestVote args =>
    have hmeet : n.server.meetTerm args.term = n.server := if_neg (of_decide_eq_false hx)
    dsimp only
    generalize hr : n.server.handleRequestVote args = r
    cases Server.handleRequestVote_way hr with
    | old => exact ⟨hrole, rfl⟩
    | granted | denied =>
      rw [hmeet]
      exact ⟨hrole, rfl⟩
  | appendEntries args r hr =>
    rw [Server.handleAppendEntries, if_pos (not_le.mp (of_decide_eq_false hx))] at hr
    rw [← Option.some.inj hr]
    exact ⟨hrole, rfl⟩
  | requestVoteReply u reply =>
    have hstay : n.server.handleRequestVoteReply u reply = n.server := by
      rw [Server.handleRequestVoteReply, if_neg (of_decide_eq_false hx), if_pos (Or.inl ?_)]
      rw [hrole]
      simp
    dsimp only
    rw [hstay]
    exact ⟨hrole, rfl⟩
  | appendEntriesReply peer args reply =>
    exact steady (Server.handleAppendEntriesReply_steady peer args (of_decide_eq_false hx))
  | contactFailed peer => exact steady ⟨rfl, rfl, rfl, rfl, rfl⟩
  | electionTimeout r hr =>
    rw [Server.electionTimeout, if_pos hrole] at hr
    exact absurd hr (by simp)
  | proposed request w s hp | atOnce request w s hp => exact steady (Server.propose_steady hp)
  | sendRequestVotes | replicate | refused | wake => exact ⟨hrole, rfl⟩

end Node

namespace Cluster

variable {conf : Config} {c c' : Cluster} {tr evs : List (ℕ × Node.Event)} {l t : ℕ}

/-- The step is a candidacy. -/
def Action.isCandidacy : Action → Bool
  | .run _ (.thread .electionTimeout) | .crashIn _ (.thread .electionTimeout) _ _ => true
  | _ => false

/-- Node `l` leads term `t`, and no member has gone on to a later one. -/
structure Undisputed (conf : Config) (l t : ℕ) (c : Cluster) : Prop where
  leads : (c.hosts l).server.role = .leader
  term : c.term l = t
  latest : ∀ i ∈ conf.members, c.term i ≤ t

/-- What a member reads is of no later term, unless it stands for election. -/
theorem Undisputed.within (h : Undisputed conf l t c) (hel : ElectionInv conf tr c) {i : ℕ}
    {g : Trigger} {x : Input} {net : List Packet} (hfetch : c.fetch i g = some (x, net))
    (hx : x ≠ .electionTimeout) : x.Within t := by
  rcases fetch_eq_some hfetch with ⟨-, hloc, -⟩ | ⟨p, -, hp, hdel, -⟩
  · cases x with
    | electionTimeout => exact absurd rfl hx
    | requestVote | appendEntries | requestVoteReply | appendEntriesReply =>
      exact absurd hloc (by simp [Input.isLocal])
    | _ => trivial
  · have hfair := hel.packets p hp
    cases hdel with
    | requestVote caller b args => exact hfair.2.2.2.trans (h.latest caller hfair.1)
    | requestVoteReply callee u reply =>
      exact hfair.2.2.2.1.trans (h.latest callee ((conf.mem_peers i hfair.1 callee).mp hfair.2.1).1)
    | appendEntries caller b args args' hargs =>
      show args'.term ≤ t
      rw [receiveAppendEntries_term hargs]
      exact ((Nat.mod_le _ _).trans hfair.2.2).trans (h.latest caller hfair.1)
    | appendEntriesReply callee args reply =>
      exact hfair.2.2.trans (h.latest callee ((conf.mem_peers i hfair.1 callee).mp hfair.2.1).1)

/-- **Nothing deposes the leader**: only itself sends an `AppendEntries` of its term. -/
theorem Undisputed.not_deposed (h : Undisputed conf l t c) (hrun : Run (machine conf) Intact tr c)
    (hl : l ∈ conf.members) {g : Trigger} {x : Input} {net : List Packet}
    (hfetch : c.fetch l g = some (x, net)) : x.deposes (c.hosts l).server = false := by
  have hel := electionInv hrun
  have hterm : (c.hosts l).server.metadata.currentTerm = t := h.term
  have hnot : ∀ {u : ℕ}, u ≤ t → decide ((c.hosts l).server.metadata.currentTerm < u) = false := by
    intro u hu
    rw [hterm]
    exact decide_eq_false hu.not_gt
  rcases fetch_eq_some hfetch with ⟨-, hloc, -⟩ | ⟨p, -, hp, hdel, -⟩
  · exact Input.deposes_of_isLocal hloc _
  have hwithin : x.Within t := h.within hel hfetch (by rintro rfl; cases hdel)
  cases hdel with
  | requestVote | requestVoteReply | appendEntriesReply => exact hnot hwithin
  | appendEntries caller b args args' hargs =>
    obtain ⟨-, hne, log, hled⟩ := (hintInv hrun).signed _ hp
    obtain ⟨log', hled'⟩ := hel.led hl h.leads
    rw [Input.deposes, hterm]
    refine decide_eq_false fun hle => hne ?_
    obtain ⟨hcaller, -, hle'⟩ := hel.packets _ hp
    have heq : args.term = t := by
      rw [receiveAppendEntries_term hargs,
        Nat.mod_eq_of_lt (hle'.trans_lt (hel.term_lt hcaller))] at hle
      exact le_antisymm (hle'.trans (h.latest caller hcaller)) hle
    rw [heq] at hled
    rw [h.term] at hled'
    exact becomeLeader_unique hrun hled hled'

theorem Undisputed.of_node (h : Undisputed conf l t c) {i : ℕ} {n : Node} {net : List Packet}
    (hlead : l = i → n.server.role = .leader ∧ n.server.metadata.currentTerm = t)
    (hle : n.server.metadata.currentTerm ≤ t) :
    Undisputed conf l t ⟨Function.update c.hosts i n, net⟩ := by
  have hlatest : ∀ j ∈ conf.members,
      (Function.update c.hosts i n j).server.metadata.currentTerm ≤ t :=
    forall_mem_update (Q := fun _ n => n.server.metadata.currentTerm ≤ t) hle
      fun j hj _ => h.latest j hj
  have hself : (Function.update c.hosts i n l).server.role = .leader ∧
      (Function.update c.hosts i n l).server.metadata.currentTerm = t := by
    by_cases hli : l = i
    · subst hli
      rw [Function.update_self]
      exact hlead rfl
    · rw [Function.update_of_ne hli]
      exact ⟨h.leads, h.term⟩
  exact ⟨hself.1, hself.2, hlatest⟩

/-- **Without candidacies the leader stays**, as long as it does not crash. -/
theorem Undisputed.step (h : Undisputed conf l t c) (hrun : Run (machine conf) Intact tr c)
    (hl : l ∈ conf.members) {a : Action} (hadm : c.Admissible a)
    (hcrash : ∀ retries, a ≠ .crash l retries) (hcand : a.isCandidacy = false)
    (hs : Cluster.step conf c a = some (c', evs)) : Undisputed conf l t c' := by
  have hel := electionInv hrun
  cases step_moves hs with
  | run i g x net m os hi hfetch hm =>
    have hx : x ≠ .electionTimeout := by
      rintro rfl
      rw [fetch_of_isLocal hfetch rfl] at hcand
      exact absurd hcand (by simp [Action.isCandidacy])
    have hle : m.flush.server.metadata.currentTerm ≤ t :=
      Node.handle_le (m := m) hm (h.latest i hi) (h.within hel hfetch hx)
    refine h.of_node (fun hli => ?_) hle
    subst hli
    obtain ⟨hrole, hterm⟩ := Node.handle_leads hm h.leads (h.not_deposed hrun hl hfetch)
    exact ⟨hrole, hterm.trans h.term⟩
  | crash i retries hi =>
    have hli : l ≠ i := by
      rintro rfl
      exact hcrash retries rfl
    have hballot := (Node.restart_settled rfl rfl hadm).2.1
    have hterm : ((c.hosts i).restart retries (c.hosts i).files).1.server.metadata.currentTerm =
        c.term i := congrArg Prod.fst (hballot.trans (hel.settled i hi).disk)
    exact h.of_node (fun heq => absurd heq hli) (hterm.trans_le (h.latest i hi))
  | crashIn => exact absurd hadm id
  | lose p hp => exact ⟨h.leads, h.term, h.latest⟩

end Cluster

/-! ## Deadlines -/

/-- Ticks of `steady_clock`, which counts nanoseconds. -/
def milliseconds (n : ℕ) : ℕ := n * 10 ^ 6

/-- What `dist` gives in `resetElectionTimer`. -/
structure Draw where
  value : ℕ
  least : 300 ≤ value
  most : value ≤ 500
  deriving DecidableEq, Repr

/-- The least that can be drawn. -/
def Draw.shortest : Draw := ⟨300, by decide, by decide⟩

/-- `resetElectionTimer`: the new `election_deadline`. -/
def resetElectionTimer (now : ℕ) (d : Draw) : ℕ := now + milliseconds d.value

/-- The sections that call `resetElectionTimer`. -/
def Server.resetsTimer (s : Server) : Input → Bool
  | .requestVote args => (s.handleRequestVote args).1.voteGranted
  | .appendEntries args => !decide (args.term < s.metadata.currentTerm)
  | .electionTimeout => true
  | _ => false

/-- A cluster with the deadlines of its members. -/
structure Timed where
  cluster : Cluster
  now : ℕ
  electionDeadline : ℕ → ℕ
  /-- when the timer of a member was last reset; nothing depends on it -/
  reset : ℕ → ℕ

/-- What happens, or that nothing happens for a while. -/
inductive Timed.Action
  | wait (ticks : ℕ)
  | act (a : Cluster.Action) (d : Draw)
  deriving DecidableEq, Repr

/-- The step resets the timer of member `i`. -/
def Cluster.resets (c : Cluster) (i : ℕ) : Cluster.Action → Bool
  | .run j g => decide (j = i) && (c.fetch j g).any fun r => (c.hosts j).server.resetsTimer r.1
  | .crash j _ | .crashIn j _ _ _ => decide (j = i)
  | .lose _ => false

namespace Timed

/-- The timer thread stands for election only when its deadline is over. -/
def due (t : Timed) : Cluster.Action → Bool
  | .run i (.thread .electionTimeout) | .crashIn i (.thread .electionTimeout) _ _ =>
    decide (t.electionDeadline i ≤ t.now)
  | _ => true

/-- The state after a step of the cluster. -/
def after (t : Timed) (a : Cluster.Action) (d : Draw) (c : Cluster) : Timed where
  cluster := c
  now := t.now
  electionDeadline i :=
    if t.cluster.resets i a then resetElectionTimer t.now d else t.electionDeadline i
  reset i := if t.cluster.resets i a then t.now else t.reset i

/-- One step, with what a trace records of it. -/
def step (conf : Config) (t : Timed) : Timed.Action → Option (Timed × List (ℕ × Node.Event))
  | .wait ticks => some ({ t with now := t.now + ticks }, [])
  | .act a d =>
    if t.due a then (t.cluster.step conf a).map fun r => (t.after a d r.1, r.2) else none

/-- The cluster with its deadlines as a machine; `first` is what the members draw at their first
start. -/
def machine (conf : Config) (first : ℕ → Draw) : Machine Timed Timed.Action (ℕ × Node.Event) where
  init := ⟨Cluster.initial conf, 0, fun i => resetElectionTimer 0 (first i), fun _ => 0⟩
  step := step conf

/-- `Cluster.Admissible`, of what happens. -/
def Admissible (t : Timed) : Timed.Action → Prop
  | .wait _ => True
  | .act a _ => t.cluster.Admissible a

variable {conf : Config} {first : ℕ → Draw} {t t' : Timed} {c : Cluster}
  {tr tr' evs : List (ℕ × Node.Event)} {P : Timed → Timed.Action → Prop}

/-- What a step does. -/
inductive Moves (conf : Config) (t : Timed) :
    Timed.Action → Timed → List (ℕ × Node.Event) → Prop
  | wait (ticks : ℕ) : Moves conf t (.wait ticks) { t with now := t.now + ticks } []
  | act (a : Cluster.Action) (d : Draw) (c : Cluster) (evs : List (ℕ × Node.Event))
      (hdue : t.due a = true) (hs : t.cluster.step conf a = some (c, evs)) :
      Moves conf t (.act a d) (t.after a d c) evs

theorem step_moves {a : Timed.Action} (h : step conf t a = some (t', evs)) :
    Moves conf t a t' evs := by
  rcases a with ticks | ⟨a, d⟩ <;> rw [step] at h
  · obtain ⟨rfl, rfl⟩ := Prod.mk.inj (Option.some.inj h)
    exact .wait ticks
  · split at h
    · next hdue =>
      obtain ⟨⟨c', es⟩, hs, heq⟩ := Option.map_eq_some_iff.mp h
      obtain ⟨rfl, rfl⟩ := Prod.mk.inj heq
      exact .act a d _ _ hdue hs
    · exact absurd h (by simp)

theorem untimed (h : Run (machine conf first) Admissible tr t) :
    Run (Cluster.machine conf) Cluster.Admissible tr t.cluster := by
  have hsim : ∃ c, Run (Cluster.machine conf) Cluster.Admissible tr c ∧ t.cluster = c := by
    refine h.simulates (R := fun (t : Timed) (c : Cluster) => t.cluster = c) ?_ ?_
    · rfl
    · rintro tr t c a t₁ es - - rfl hadm hs
      cases step_moves hs with
      | wait ticks => exact ⟨_, .refl, rfl⟩
      | act a d c evs hdue hs => exact ⟨_, .step hadm hs, rfl⟩
  obtain ⟨c, hc, rfl⟩ := hsim
  exact hc

/-- After a while, any step is due. -/
theorem exists_due (t : Timed) (a : Cluster.Action) :
    ∃ ticks, due { t with now := t.now + ticks } a = true := by
  have hover : ∀ i, decide (t.electionDeadline i ≤ t.now + t.electionDeadline i) = true := fun i =>
    decide_eq_true (Nat.le_add_left _ _)
  cases a with
  | run i g =>
    refine ⟨t.electionDeadline i, ?_⟩
    unfold due
    split
    · next heq =>
      obtain ⟨rfl, -⟩ := Cluster.Action.run.inj heq
      exact hover i
    · next heq => exact absurd heq (by simp)
    · rfl
  | crashIn i g p retries =>
    refine ⟨t.electionDeadline i, ?_⟩
    unfold due
    split
    · next heq => exact absurd heq (by simp)
    · next heq =>
      obtain ⟨rfl, -⟩ := Cluster.Action.crashIn.inj heq
      exact hover i
    · rfl
  | crash | lose => exact ⟨0, rfl⟩

/-- What the cluster can do, it can do after a while. -/
theorem exists_path {a : Cluster.Action} (hadm : t.cluster.Admissible a)
    (hs : t.cluster.step conf a = some (c, evs)) :
    ∃ t', Path (machine conf first) Admissible t evs t' ∧ t'.cluster = c := by
  obtain ⟨ticks, hdue⟩ := t.exists_due a
  let t₁ : Timed := { t with now := t.now + ticks }
  have hwait : step conf t (.wait ticks) = some (t₁, []) := rfl
  have hact : step conf t₁ (.act a (first 0)) = some (t₁.after a (first 0) c, evs) := by
    have hs₁ : t₁.cluster.step conf a = some (c, evs) := hs
    rw [step, if_pos hdue, hs₁, Option.map_some]
  have hpath : Path (machine conf first) Admissible t [] t₁ :=
    .step (a := Action.wait ticks) trivial hwait
  exact ⟨_, hpath.trans (.step (a := Action.act a (first 0)) hadm hact), rfl⟩

/-- **The clock neither adds nor takes away a run**: what the cluster can do with its deadlines is
what it can do if its timers go off at any time, whatever is drawn at the start. -/
theorem run_iff (conf : Config) (first : ℕ → Draw) (tr : List (ℕ × Node.Event)) (c : Cluster) :
    (∃ t, Run (machine conf first) Admissible tr t ∧ t.cluster = c) ↔
      Run (Cluster.machine conf) Cluster.Admissible tr c := by
  refine ⟨?_, fun h => ?_⟩
  · rintro ⟨t, h, rfl⟩
    exact untimed h
  · refine h.simulates (R := fun (c : Cluster) (t : Timed) => t.cluster = c) ?_ ?_
    · rfl
    · rintro tr c t a c₁ es - - rfl hadm hs
      exact exists_path hadm hs

/-! ## The window -/

/-- A timer goes off 300 to 500 ms after its last reset. -/
structure InTime (t : Timed) : Prop where
  least : ∀ i, t.reset i + milliseconds 300 ≤ t.electionDeadline i
  most : ∀ i, t.electionDeadline i ≤ t.reset i + milliseconds 500

theorem resetElectionTimer_bounds (now : ℕ) (d : Draw) :
    now + milliseconds 300 ≤ resetElectionTimer now d ∧
      resetElectionTimer now d ≤ now + milliseconds 500 := by
  have hleast := Nat.mul_le_mul_right (10 ^ 6) d.least
  have hmost := Nat.mul_le_mul_right (10 ^ 6) d.most
  exact ⟨Nat.add_le_add_left hleast now, Nat.add_le_add_left hmost now⟩

theorem inTime (h : Run (machine conf first) P tr t) : t.InTime := by
  refine h.invariant (I := fun _ t => t.InTime) ?_ ?_
  · exact ⟨fun i => (resetElectionTimer_bounds 0 (first i)).1,
      fun i => (resetElectionTimer_bounds 0 (first i)).2⟩
  · intro tr t a t' es _ hI _ hs
    cases step_moves hs with
    | wait ticks => exact ⟨hI.least, hI.most⟩
    | act a d c evs hdue hs =>
      have hbounds : ∀ i, (t.after a d c).reset i + milliseconds 300 ≤
          (t.after a d c).electionDeadline i ∧
            (t.after a d c).electionDeadline i ≤ (t.after a d c).reset i + milliseconds 500 := by
        intro i
        dsimp only [after]
        split
        · exact resetElectionTimer_bounds t.now d
        · exact ⟨hI.least i, hI.most i⟩
      exact ⟨fun i => (hbounds i).1, fun i => (hbounds i).2⟩

/-! ## The leader stays -/

/-- Node `l` does not crash, and the timer of every other member that does anything was reset in the
last 300 ms. -/
def Attended (l : ℕ) (t : Timed) : Timed.Action → Prop
  | .wait _ => True
  | .act a _ => t.cluster.Admissible a ∧ (∀ retries, a ≠ .crash l retries) ∧
      ∀ i g, a = .run i g → i ≠ l → t.now < t.reset i + milliseconds 300

/-- Nobody stands for election. -/
def Action.quiet : Timed.Action → Prop
  | .wait _ => True
  | .act a _ => a.isCandidacy = false

/-- A leader does not stand for election, and nobody does too early. -/
theorem Attended.quiet {l : ℕ} {a : Cluster.Action} {d : Draw} (h : Attended l t (.act a d))
    (hintime : t.InTime) (hrole : (t.cluster.hosts l).server.role = .leader)
    (hdue : t.due a = true) (hs : t.cluster.step conf a = some (c, evs)) :
    a.isCandidacy = false := by
  obtain ⟨hadm, -, hnews⟩ := h
  cases Cluster.step_moves hs with
  | run i g x net m os hi hfetch hm =>
    refine Bool.eq_false_iff.mpr fun hcand => ?_
    obtain rfl : g = .thread .electionTimeout := by
      rcases g with x | p
      · cases x <;> first | rfl | exact absurd hcand (by simp [Cluster.Action.isCandidacy])
      · exact absurd hcand (by simp [Cluster.Action.isCandidacy])
    by_cases hil : i = l
    · subst hil
      obtain ⟨rfl, -⟩ := Prod.mk.inj (Option.some.inj hfetch)
      cases Node.handle_section hm with
      | electionTimeout r hr =>
        rw [Server.electionTimeout, if_pos hrole] at hr
        exact absurd hr (by simp)
    · have hsoon := hnews i _ rfl hil
      have hover : t.electionDeadline i ≤ t.now := of_decide_eq_true hdue
      exact absurd (hsoon.trans_le ((hintime.least i).trans hover)) (lt_irrefl _)
  | crash | lose => rfl
  | crashIn => exact absurd hadm id

/-- **A leader that the others hear of stays.**  From a moment at which it leads the latest term,
and as long as it does not crash and the others get an `AppendEntries`, give a vote or are started
at least every 300 ms, a leader leads its term, no member gets to a later one, and nobody stands for
election, whatever else happens. -/
theorem leader_stable (h : Run (machine conf first) Admissible tr t) {l : ℕ} (hl : l ∈ conf.members)
    (hrole : (t.cluster.hosts l).server.role = .leader)
    (hlatest : ∀ i ∈ conf.members, t.cluster.term i ≤ t.cluster.term l)
    (hpath : Path (machine conf first) (Attended l) t tr' t') :
    (t'.cluster.hosts l).server.role = .leader ∧ t'.cluster.term l = t.cluster.term l ∧
      (∀ i ∈ conf.members, t'.cluster.term i ≤ t.cluster.term l) ∧
      Path (machine conf first) (fun _ a => a.quiet) t tr' t' := by
  have hadm : ∀ t a, Attended l t a → t.Admissible a := by
    rintro t (ticks | ⟨a, d⟩) ha
    · trivial
    · exact ha.1
  have hinv := hpath.invariant
    (I := fun tr' t' => Cluster.Undisputed conf l (t.cluster.term l) t'.cluster ∧
      Path (machine conf first) (fun _ a => a.quiet) t tr' t')
    ⟨⟨hrole, rfl, hlatest⟩, .refl⟩ ?_
  · exact ⟨hinv.1.leads, hinv.1.term, hinv.1.latest, hinv.2⟩
  rintro tr₁ t₁ a t₂ evs hp ⟨hI, hquiet⟩ ha hs
  have hrun := h.path (hp.mono hadm)
  have hcluster := (untimed hrun).mono fun _ _ => Cluster.Admissible.intact
  cases step_moves hs with
  | wait ticks => exact ⟨hI, hquiet.next (a := Action.wait ticks) trivial hs⟩
  | act a d c evs hdue hs' =>
    have hcand := ha.quiet (inTime hrun) hI.leads hdue hs'
    exact ⟨hI.step hcluster hl ha.1 ha.2.1 hcand hs',
      hquiet.next (a := Action.act a d) hcand hs⟩

/-- `Admissible`, decided as `Cluster.admits` does it. -/
def admits (t : Timed) : Timed.Action → Bool
  | .wait _ => true
  | .act a _ => t.cluster.admits a

theorem admissible_of_admits (t : Timed) (a : Timed.Action) (h : t.admits a = true) :
    t.Admissible a := by
  cases a with
  | wait => trivial
  | act a d => exact Cluster.admissible_of_admits _ _ h

/-- `Attended`, decided. -/
def attends (l : ℕ) (t : Timed) : Timed.Action → Bool
  | .wait _ => true
  | .act a _ => t.cluster.admits a && match a with
    | .run i _ => decide (i = l) || decide (t.now < t.reset i + milliseconds 300)
    | .crash i _ => decide (i ≠ l)
    | _ => true

theorem attended_of_attends (l : ℕ) (t : Timed) (a : Timed.Action) (h : t.attends l a = true) :
    t.Attended l a := by
  cases a with
  | wait => trivial
  | act a d =>
    obtain ⟨hadm, ha⟩ := Bool.and_eq_true_iff.mp h
    refine ⟨Cluster.admissible_of_admits _ _ hadm, ?_, ?_⟩
    · rintro retries rfl
      exact absurd rfl (of_decide_eq_true ha)
    · rintro i g rfl hil
      rcases Bool.or_eq_true_iff.mp ha with heq | hlt
      · exact absurd (of_decide_eq_true heq) hil
      · exact of_decide_eq_true hlt

/-- Two followers get word of the leader, one after 250 ms, the other is started again. -/
theorem leader_stable_heard : ∃ tr t tr' t',
    Run (machine .three fun _ => .shortest) Admissible tr t ∧
    t.now + milliseconds 549 = t'.now ∧ (t'.cluster.hosts 3).boot = 1 ∧
    (t'.cluster.hosts 1).server.role = .leader ∧ t'.cluster.term 1 = t.cluster.term 1 ∧
      (∀ i ∈ Config.three.members, t'.cluster.term i ≤ t.cluster.term 1) ∧
      Path (machine .three fun _ => .shortest) (fun _ a => a.quiet) t tr' t' := by
  let news (v : ℕ) : List Cluster.Action := Cluster.deliver 1 v ⟨1, 1, 1, 1, [], 1⟩
  let begun : List Action :=
    .wait (milliseconds 300) :: (Cluster.firstLeader ++ news 3).map (.act · .shortest)
  let later : List Action := .wait (milliseconds 250) :: (news 2).map (.act · .shortest) ++
    .act (.crash 3 []) .shortest :: .wait (milliseconds 299) :: (news 2).map (.act · .shortest)
  obtain ⟨tr, t, hrun, h⟩ := Run.exists_of_exec admissible_of_admits
    (M := machine .three fun _ => .shortest)
    (fun t _ => decide ((t.cluster.hosts 1).server.role = .leader ∧
      ∀ i ∈ Config.three.members, t.cluster.term i ≤ t.cluster.term 1) &&
        ((machine .three fun _ => .shortest).exec (attends 1) t later).any
          fun r : Timed × List (ℕ × Node.Event) =>
            decide (t.now + milliseconds 549 = r.1.now ∧ (r.1.cluster.hosts 3).boot = 1))
    begun (by decide +kernel)
  obtain ⟨h, hlater⟩ := Bool.and_eq_true_iff.mp h
  obtain ⟨hrole, hlatest⟩ := of_decide_eq_true h
  obtain ⟨tr', t', hpath, hend⟩ := Path.exists_of_exec (attended_of_attends 1) _ later hlater
  obtain ⟨hnow, hboot⟩ := of_decide_eq_true hend
  exact ⟨tr, t, tr', t', hrun, hnow, hboot,
    leader_stable hrun (by decide) hrole hlatest hpath⟩

end Timed

end RaftConsensus
