import RaftConsensus.Safety

/-!
# What a node has applied

The loop of `handleAppendEntries` may cut the log anywhere, and `applyCommitted` stops
without a word where the log ends.  That the state machine of a node is all the same the
committed part of its log, and nothing else, is a fact about runs of clusters.

What happened "since the start" of a node is kept in a history variable: the `Life` of a node
has the server at each release of the lock, and what the node did.  A crash begins a new
life, which remembers the server of the old one.

* `Server.Applies`: a section raises the commit index, or leaves it, and applies what is new
  in order.
* `Cluster.chronicle`: the cluster with the lives of its nodes.
* `applied_committed_prefix`: in every life of every node, the state machine is the fold of
  the committed part of the log.
-/

namespace RaftConsensus

/-! ## What a section applies -/

namespace Server

variable {s s' s'' : Server}

theorem appliedMarks_append (k : ℕ) (es es' : List LogEntry) :
    appliedMarks k (es ++ es') = appliedMarks k es ++ appliedMarks (k + es.length) es' := by
  induction es generalizing k with
  | nil => rfl
  | cons e es ih =>
    rw [List.cons_append, appliedMarks, ih, appliedMarks, List.length_cons,
      show k + 1 + es.length = k + (es.length + 1) by omega, List.cons_append]

/-- The marks are one for each entry, in order. -/
theorem appliedMarks_eq_mapIdx (k : ℕ) (es : List LogEntry) :
    appliedMarks k es = es.mapIdx fun j e => .applied (k + j + 1) e.command := by
  induction es generalizing k with
  | nil => rfl
  | cons e es ih =>
    rw [appliedMarks, ih, List.mapIdx_cons]
    simp only [Nat.add_zero, Nat.add_assoc, Nat.add_comm 1]

theorem appliedMarks_zero (es : List LogEntry) :
    appliedMarks 0 es = es.mapIdx fun k e => .applied (k + 1) e.command := by
  simpa using appliedMarks_eq_mapIdx 0 es

/-- Nothing is committed and nothing is applied. -/
structure Still (s s' : Server) : Prop where
  commit : s'.metadata.commitIndex = s.metadata.commitIndex
  lastApplied : s'.metadata.lastApplied = s.metadata.lastApplied
  marks : s'.effects.filter Effect.isApplied = s.effects.filter Effect.isApplied

/-- The commit index does not go down, and the entries from `lastApplied` up to it are applied. -/
structure Applies (s s' : Server) : Prop where
  le : s.metadata.commitIndex ≤ s'.metadata.commitIndex
  marks : s'.effects.filter Effect.isApplied = s.effects.filter Effect.isApplied ++
    appliedMarks s.metadata.lastApplied
      ((s'.logEntries.take s'.metadata.commitIndex).drop s.metadata.lastApplied)

theorem Still.refl (s : Server) : Still s s := ⟨rfl, rfl, rfl⟩

theorem Still.trans (h : Still s s') (h' : Still s' s'') : Still s s'' :=
  ⟨h'.commit.trans h.commit, h'.lastApplied.trans h.lastApplied, h'.marks.trans h.marks⟩

theorem Still.emit (s : Server) {e : Effect} (he : e.isApplied = false) : Still s (s.emit e) := by
  refine ⟨rfl, rfl, ?_⟩
  rw [Server.emit, List.filter_append, List.filter_singleton, he]
  exact List.append_nil _

theorem Still.trans_applies (h : Still s s') (h' : Applies s' s'') : Applies s s'' where
  le := h.commit.symm.le.trans h'.le
  marks := by rw [h'.marks, h.marks, h.lastApplied]

/-- With everything applied before, a section that is still applies what there is: nothing. -/
theorem Still.applies (h : Still s s') (hs : s.metadata.lastApplied = s.metadata.commitIndex) :
    Applies s s' where
  le := h.commit.symm.le
  marks := by
    have hnil : (s'.logEntries.take s'.metadata.commitIndex).drop s.metadata.lastApplied = [] := by
      rw [List.drop_eq_nil_iff, List.length_take, h.commit, hs]
      exact min_le_left _ _
    rw [hnil, h.marks]
    exact (List.append_nil _).symm

/-- **Raising the commit index applies what is new.** -/
theorem raiseCommit_applies {n : ℕ} {mark : Effect} (hmark : ∀ m, mark.IsCommit m)
    (hnot : mark.isApplied = false) (hn : s.metadata.commitIndex ≤ n) :
    Applies s (s.raiseCommit n mark) := by
  obtain ⟨es, hc, hmarks⟩ := s.raiseCommit_commits n mark hmark hnot
  have hcommit : (s.raiseCommit n mark).metadata.commitIndex = n := applyCommitted_commitIndex _
  refine ⟨hn.trans hcommit.symm.le, ?_⟩
  rw [hc.effects, List.filter_append, hmarks, hc.logEntries, hcommit]

theorem advanceCommit_applies (hs : s.metadata.lastApplied = s.metadata.commitIndex) :
    Applies s s.advanceCommit := by
  rcases s.advanceCommit_cases with heq | ⟨n, -, hscan, heq⟩
  · rw [heq]
    exact (Still.refl s).applies hs
  · rw [heq]
    exact raiseCommit_applies (fun _ => trivial) rfl (commitScan_eq_some hscan).1.le

theorem followCommit_applies (args : AppendEntriesArgs)
    (hs : s.metadata.lastApplied = s.metadata.commitIndex) : Applies s (s.followCommit args) := by
  unfold followCommit
  split
  · dsimp only
    split
    · next hlt => exact raiseCommit_applies (fun _ => trivial) rfl hlt.le
    · exact (Still.refl s).applies hs
  · exact (Still.refl s).applies hs

theorem adoptTerm_still (s : Server) (t leaderId : ℕ) : Still s (s.adoptTerm t leaderId) := by
  refine ⟨rfl, rfl, ?_⟩
  rw [adoptTerm, List.filter_append]
  exact List.append_nil _

theorem handleRequestVote_still (s : Server) (args : RequestVoteArgs) :
    Still s (s.handleRequestVote args).2 := by
  have hmeet : Still s (s.meetTerm args.term) := by
    unfold meetTerm
    split
    · exact s.adoptTerm_still args.term 0
    · exact .refl s
  generalize hr : s.handleRequestVote args = r
  cases handleRequestVote_way hr with
  | old => exact .refl s
  | granted =>
    generalize s.meetTerm args.term = s' at hmeet ⊢
    have hvote : Still s'
        { s' with metadata := { s'.metadata with votedFor := args.candidateId } } := ⟨rfl, rfl, rfl⟩
    have hwrite := hvote.trans
      (.emit _ (e := .updateMetaData { s'.metadata with votedFor := args.candidateId }) rfl)
    exact (hmeet.trans hwrite).trans
      (.emit _ (e := .votedFor args.candidateId s'.metadata.currentTerm) rfl)
  | denied => exact hmeet

theorem storeEntries_still {entries : List LogEntry} (h : s.storeEntries entries = some s') :
    Still s s' := by
  cases storeEntries_way h with
  | same => exact ⟨rfl, rfl, rfl⟩
  | rewritten log =>
    have hlog : Still s { s with logEntries := log } := ⟨rfl, rfl, rfl⟩
    exact hlog.trans (.emit _ (e := .rewriteLog log) rfl)

/-- **Only step 6 of `handleAppendEntries` applies anything.** -/
theorem handleAppendEntries_applies {args : AppendEntriesArgs} {r : AppendEntriesReply × Server}
    (h : s.handleAppendEntries args = some r)
    (hs : s.metadata.lastApplied = s.metadata.commitIndex) : Applies s r.2 := by
  have hrec : Still s (s.recognizeLeader args) := by
    rw [recognizeLeader_eq]
    split
    · exact s.adoptTerm_still _ _
    · exact ⟨rfl, rfl, rfl⟩
  cases handleAppendEntries_way h with
  | old => exact (Still.refl s).applies hs
  | mismatch => exact hrec.applies hs
  | stored hterm hprev s' hs' =>
    have hstill := hrec.trans (storeEntries_still hs')
    exact hstill.trans_applies (s'.followCommit_applies args
      (by rw [hstill.lastApplied, hstill.commit, hs]))

/-- A section that ends with `advanceCommit`. -/
theorem Still.advanceCommit (h : Still s s')
    (hs : s.metadata.lastApplied = s.metadata.commitIndex) : Applies s s'.advanceCommit :=
  h.trans_applies (advanceCommit_applies (by rw [h.lastApplied, h.commit, hs]))

theorem becomeLeader_applies (hs : s.metadata.lastApplied = s.metadata.commitIndex) :
    Applies s s.becomeLeader := by
  have hmark := Still.emit s (e := .becomeLeader s.metadata.currentTerm s.logEntries) rfl
  have htake : Still s s.takeLead := ⟨rfl, rfl, hmark.marks⟩
  have hpush : Still s.takeLead
      { s.takeLead with logEntries := s.takeLead.logEntries ++ [s.takeLead.noop] } :=
    ⟨rfl, rfl, rfl⟩
  have happend := hpush.trans (.emit _ (e := .writelog s.takeLead.noop) rfl)
  have hreset : Still (s.takeLead.appendEntry s.takeLead.noop)
      (s.takeLead.appendEntry s.takeLead.noop).resetPeers := ⟨rfl, rfl, rfl⟩
  exact ((htake.trans happend).trans hreset).advanceCommit hs

theorem handleRequestVoteReply_applies (t : ℕ) (reply : RequestVoteReply)
    (hs : s.metadata.lastApplied = s.metadata.commitIndex) :
    Applies s (s.handleRequestVoteReply t reply) := by
  have hcount : Still s s.countVote := ⟨rfl, rfl, rfl⟩
  generalize hs' : s.handleRequestVoteReply t reply = s'
  cases handleRequestVoteReply_way hs' with
  | stepsDown => exact (s.adoptTerm_still _ _).applies hs
  | ignored => exact (Still.refl _).applies hs
  | won => exact hcount.trans_applies (becomeLeader_applies hs)
  | counted => exact hcount.applies hs

theorem handleAppendEntriesReply_applies (peer : ℕ) (args : AppendEntriesArgs)
    (reply : AppendEntriesReply) (hs : s.metadata.lastApplied = s.metadata.commitIndex) :
    Applies s (s.handleAppendEntriesReply peer args reply) := by
  have hup : Still s (s.reached peer) := ⟨rfl, rfl, rfl⟩
  generalize hs' : s.handleAppendEntriesReply peer args reply = s'
  cases handleAppendEntriesReply_way hs' with
  | stepsDown => exact (hup.trans (adoptTerm_still _ _ _)).applies hs
  | ignored => exact hup.applies hs
  | credited =>
    rw [creditPeer_eq]
    refine Still.advanceCommit ?_ hs
    exact ⟨rfl, rfl, rfl⟩
  | backed => exact Still.applies ⟨rfl, rfl, rfl⟩ hs

theorem electionTimeout_applies {r : Bool × Server} (h : s.electionTimeout = some r)
    (hs : s.metadata.lastApplied = s.metadata.commitIndex) : Applies s r.2 := by
  have hcand : Still s s.becomeCandidate := by
    refine ⟨rfl, rfl, ?_⟩
    simp [becomeCandidate, persistMetaData, Server.emit, Effect.isApplied]
  cases electionTimeout_way h with
  | alone => exact hcand.trans_applies (becomeLeader_applies hs)
  | campaigns => exact hcand.applies hs

theorem propose_applies {request : Request} {w : Waiter} (h : s.propose request = some (w, s'))
    (hs : s.metadata.lastApplied = s.metadata.commitIndex) : Applies s s' := by
  obtain ⟨-, -, hs'⟩ := propose_eq h
  have hpush : Still s { s with logEntries := s.logEntries ++ [w.entry] } := ⟨rfl, rfl, rfl⟩
  rw [hs']
  exact (hpush.trans (.emit _ (e := .writelog _) rfl)).advanceCommit hs

end Server

/-- **Every section applies what it commits**, in order and once. -/
theorem Node.handle_applies {n m : Node} {x : Input} {os : List Output}
    (hm : n.handle x = some (m, os))
    (hs : n.server.metadata.lastApplied = n.server.metadata.commitIndex) :
    n.server.Applies m.server := by
  have same : n.server.Applies n.server := (Server.Still.refl _).applies hs
  cases handle_section hm with
  | requestVote args => exact (n.server.handleRequestVote_still args).applies hs
  | appendEntries args r hr => exact Server.handleAppendEntries_applies hr hs
  | requestVoteReply t reply => exact Server.handleRequestVoteReply_applies t reply hs
  | appendEntriesReply peer args reply =>
    exact Server.handleAppendEntriesReply_applies peer args reply hs
  | contactFailed peer => exact Server.Still.applies ⟨rfl, rfl, rfl⟩ hs
  | electionTimeout r hr => exact Server.electionTimeout_applies hr hs
  | proposed request w s hp => exact Server.propose_applies hp hs
  | atOnce request w s hp => exact Server.propose_applies hp hs
  | sendRequestVotes | replicate | refused | wake => exact same

/-! ## The life of a node -/

/-- What happened to a node since it was started. -/
structure Life where
  /-- the server at its last release of the lock before the start, if it has run before -/
  before : Option Server
  /-- the server at each release of the lock, the last one at the end -/
  releases : List Server
  effects : List Effect

/-- The life of a node that has just been started on given files. -/
def Life.born (before : Option Server) (files : Files) (n : Node) : Life where
  before := before
  releases := [n.server]
  effects := Node.bootEffects n.server.nodeId n.server.peers files

/-- The files on which a node that crashed with given files is started in the end. -/
def Node.startFiles (n : Node) (retries : List CrashPoint) (files : Files) : Files :=
  (failedStarts n.server.nodeId n.server.peers retries files).2

namespace Cluster

variable {conf : Config} {c c' : Cluster} {tr evs : List (ℕ × Node.Event)}

/-- The lives of the nodes after a step. -/
def liveOn (c : Cluster) (x : Action) (c' : Cluster) (evs : List (ℕ × Node.Event))
    (lives : ℕ → Life) : ℕ → Life :=
  match x with
  | .run i _ => Function.update lives i
      { lives i with
        releases := (lives i).releases ++ [(c'.hosts i).server]
        effects := (lives i).effects ++ effects i evs }
  | .crash i retries => Function.update lives i
      (.born (some (c.hosts i).server) ((c.hosts i).startFiles retries (c.hosts i).files)
        (c'.hosts i))
  | .crashIn i g p retries =>
    match (c.fetch i g).bind fun r => (c.hosts i).handle r.1 with
    | none => lives
    | some (m, _) => Function.update lives i
        (.born (some (c.hosts i).server)
          ((c.hosts i).startFiles retries (crashFiles m.server.effects p (c.hosts i).files))
          (c'.hosts i))
  | .lose _ => lives

/-- A cluster with the lives of its nodes. -/
def chronicle (conf : Config) : Machine (Cluster × (ℕ → Life)) Action (ℕ × Node.Event) :=
  (machine conf).withHistory (fun i => .born none Files.none ((initial conf).hosts i)) liveOn

end Cluster

/-- **The state machine of a life is the committed prefix**, when the server is `s`. -/
structure Life.AppliesCommitted (l : Life) (s : Server) : Prop where
  /-- the life has got to `s` -/
  last : l.releases.getLast? = some s
  /-- at each release of the lock the committed entries are applied, and no others -/
  folded : ∀ r ∈ l.releases, r.metadata.lastApplied = r.metadata.commitIndex ∧
    r.metadata.commitIndex ≤ r.logEntries.length ∧
      r.stateMachine = .replay (r.logEntries.take r.metadata.lastApplied)
  /-- each committed entry was applied once, in order -/
  once : l.effects.filter Effect.isApplied = (s.logEntries.take s.metadata.commitIndex).mapIdx
    fun k e => .applied (k + 1) e.command
  /-- the commit index goes up, and what was committed stays in the log -/
  kept : l.releases.Pairwise fun r r' => r.metadata.commitIndex ≤ r'.metadata.commitIndex ∧
    r'.logEntries.take r.metadata.commitIndex = r.logEntries.take r.metadata.commitIndex
  /-- the state machine was rebuilt from a part of what was committed before the start, and the
  log is what it was -/
  rebuilt : ∀ b ∈ l.before, ∀ r ∈ l.releases.head?,
    r.metadata.commitIndex ≤ b.metadata.commitIndex ∧ r.logEntries = b.logEntries ∧
      r.stateMachine = .replay (b.logEntries.take r.metadata.commitIndex)

/-- A start applies what it finds committed. -/
theorem Node.bootEffects_marks (i : ℕ) (ps : List ℕ) (files : Files) (boot : ℕ) :
    (bootEffects i ps files).filter Effect.isApplied =
      Server.appliedMarks 0 ((start i ps files boot).server.logEntries.take
        (start i ps files boot).server.metadata.commitIndex) := by
  have hinit : (initStorage files).filter Effect.isApplied = [] := by
    rw [initStorage, List.filter_append]
    split <;> split <;> rfl
  rw [bootEffects, start, List.filter_append, hinit, recover_eq]
  dsimp only
  rw [List.nil_append, List.filter_append, List.filter_append, Server.filter_appliedMarks]
  split <;> exact List.append_nil _

/-- A life that begins. -/
theorem Life.AppliesCommitted.born {before : Option Server} {files : Files} {n : Node}
    (hmarks : (Node.bootEffects n.server.nodeId n.server.peers files).filter Effect.isApplied =
      Server.appliedMarks 0 (n.server.logEntries.take n.server.metadata.commitIndex))
    (hfold : n.server.metadata.lastApplied = n.server.metadata.commitIndex ∧
      n.server.metadata.commitIndex ≤ n.server.logEntries.length ∧
        n.server.stateMachine = .replay (n.server.logEntries.take n.server.metadata.lastApplied))
    (hbefore : ∀ b ∈ before, n.server.metadata.commitIndex ≤ b.metadata.commitIndex ∧
      n.server.logEntries = b.logEntries) :
    (Life.born before files n).AppliesCommitted n.server where
  last := rfl
  folded r hr := by
    rw [List.mem_singleton.mp hr]
    exact hfold
  once := hmarks.trans (Server.appliedMarks_zero _)
  kept := List.pairwise_singleton _ _
  rebuilt b hb r hr := by
    obtain rfl : n.server = r := Option.some.inj hr
    obtain ⟨hle, hlog⟩ := hbefore b hb
    refine ⟨hle, hlog, ?_⟩
    rw [hfold.2.2, hfold.1, hlog]

/-- A life whose server is released once more. -/
theorem Life.AppliesCommitted.release {l : Life} {s s' : Server} {es : List Effect}
    (h : l.AppliesCommitted s) (hle : s.metadata.commitIndex ≤ s'.metadata.commitIndex)
    (hkeep : s'.logEntries.take s.metadata.commitIndex = s.logEntries.take s.metadata.commitIndex)
    (hfold : s'.metadata.lastApplied = s'.metadata.commitIndex ∧
      s'.metadata.commitIndex ≤ s'.logEntries.length ∧
        s'.stateMachine = .replay (s'.logEntries.take s'.metadata.lastApplied))
    (hmarks : es.filter Effect.isApplied = Server.appliedMarks s.metadata.commitIndex
      ((s'.logEntries.take s'.metadata.commitIndex).drop s.metadata.commitIndex)) :
    Life.AppliesCommitted
      { l with releases := l.releases ++ [s'], effects := l.effects ++ es } s' := by
  obtain ⟨rs, hrs⟩ := List.getLast?_eq_some_iff.mp h.last
  refine ⟨List.getLast?_concat, fun r hr => ?_, ?_, ?_, ?_⟩
  · rcases List.mem_append.mp hr with hr | hr
    · exact h.folded r hr
    · rw [List.mem_singleton.mp hr]
      exact hfold
  · have hold : (s'.logEntries.take s'.metadata.commitIndex).take s.metadata.commitIndex =
        s.logEntries.take s.metadata.commitIndex := by
      rw [List.take_take, min_eq_left hle]
      exact hkeep
    have hlen : (s.logEntries.take s.metadata.commitIndex).length = s.metadata.commitIndex :=
      List.length_take_of_le (h.folded s (hrs ▸ List.mem_concat_self)).2.1
    calc (l.effects ++ es).filter Effect.isApplied
        = Server.appliedMarks 0 (s.logEntries.take s.metadata.commitIndex) ++
            Server.appliedMarks s.metadata.commitIndex
              ((s'.logEntries.take s'.metadata.commitIndex).drop s.metadata.commitIndex) := by
          rw [List.filter_append, h.once, hmarks, Server.appliedMarks_zero]
      _ = Server.appliedMarks 0
            ((s'.logEntries.take s'.metadata.commitIndex).take s.metadata.commitIndex ++
              (s'.logEntries.take s'.metadata.commitIndex).drop s.metadata.commitIndex) := by
          rw [Server.appliedMarks_append, hold, hlen, Nat.zero_add]
      _ = _ := by rw [List.take_append_drop, Server.appliedMarks_zero]
  · refine List.pairwise_append.mpr ⟨h.kept, List.pairwise_singleton _ _, fun r hr r' hr' => ?_⟩
    rw [List.mem_singleton.mp hr']
    -- an earlier release, and through the last one to this one
    have hlast : r.metadata.commitIndex ≤ s.metadata.commitIndex ∧
        s.logEntries.take r.metadata.commitIndex = r.logEntries.take r.metadata.commitIndex := by
      have hkept := h.kept
      rw [hrs] at hr hkept
      rcases List.mem_append.mp hr with hr | hr
      · exact (List.pairwise_append.mp hkept).2.2 r hr s List.mem_cons_self
      · rw [List.mem_singleton.mp hr]
        exact ⟨le_rfl, rfl⟩
    exact ⟨hlast.1.trans hle, (take_eq_of_take_eq hkeep hlast.1).trans hlast.2⟩
  · intro b hb r hr
    refine h.rebuilt b hb r ?_
    rw [hrs] at hr ⊢
    rwa [List.head?_append, Option.or_of_isSome (by simp)] at hr

namespace Cluster

variable {a a' : Abstract}

/-- What a member has applied, in any state of a run. -/
theorem Refined.folded (h : Refined conf tr c a) {i : ℕ} (hi : i ∈ conf.members) :
    (c.hosts i).server.metadata.lastApplied = (c.hosts i).server.metadata.commitIndex ∧
      (c.hosts i).server.metadata.commitIndex ≤ (c.hosts i).server.logEntries.length ∧
        (c.hosts i).server.stateMachine =
          .replay ((c.hosts i).server.logEntries.take (c.hosts i).server.metadata.lastApplied) := by
  have href := h.refines hi
  rw [href.lastApplied, href.commit, href.log]
  exact ⟨rfl, h.sim.commit_le_log i, href.stateMachine⟩

/-- **What a member has committed stays where it is**, as long as its commit index does not go
back. -/
theorem Refined.take_commit (h : Refined conf tr c a) {tr' : List (ℕ × Node.Event)}
    (h' : Refined conf tr' c' a') (hg : Protocol.Grows a a') {i : ℕ} (hi : i ∈ conf.members)
    (hle : (c.hosts i).server.metadata.commitIndex ≤ (c'.hosts i).server.metadata.commitIndex) :
    (c'.hosts i).server.logEntries.take (c.hosts i).server.metadata.commitIndex =
      (c.hosts i).server.logEntries.take (c.hosts i).server.metadata.commitIndex := by
  rw [(h.refines hi).commit, (h'.refines hi).commit] at hle
  rw [(h.refines hi).commit, (h.refines hi).log, (h'.refines hi).log]
  rcases h.sim.safetyInv.commit_le i with h0 | ⟨t, m, hc, -, hm, heq⟩
  · rw [h0, List.take_zero, List.take_zero]
  · have hlen := commit_le_leaderLog h.sim.safetyInv hc
    calc (a'.log i).take (a.commit i) = (a'.leaderLog t).take (a.commit i) :=
          h'.take_eq_of_commit (hg.commits hc) hm hle
      _ = (a.leaderLog t).take (a.commit i) := hg.take_leaderLog (hm.trans hlen)
      _ = (a.log i).take (a.commit i) := heq.symm

/-- **Every step of a run carries the lives on.** -/
theorem Refined.lives_step (h : Refined conf tr c a) {x : Action} (hadm : c.Admissible x)
    (hs : Cluster.step conf c x = some (c', evs)) {lives : ℕ → Life}
    (hl : ∀ i ∈ conf.members, (lives i).AppliesCommitted (c.hosts i).server) :
    ∀ i ∈ conf.members, (liveOn c x c' evs lives i).AppliesCommitted (c'.hosts i).server := by
  obtain ⟨a', hg, -, h'⟩ := h.step hadm hs
  intro j hj
  cases step_moves hs with
  | run i g x net m os hi hfetch hm =>
    by_cases hji : j = i
    · subst hji
      have happ := Node.handle_applies hm (h.folded hj).1
      have hmarks := happ.marks
      rw [(h.mirrored j hj).clean, (h.folded hj).1] at hmarks
      have hle : (c.hosts j).server.metadata.commitIndex ≤
          (Function.update c.hosts j m.flush j).server.metadata.commitIndex := by
        rw [Function.update_self]
        exact happ.le
      rw [liveOn, Function.update_self]
      refine (hl j hj).release hle (h.take_commit h' hg hj hle) (h'.folded hj) ?_
      rw [effects_tag_self, Node.effects_section]
      dsimp only
      rw [Function.update_self]
      exact hmarks
    · rw [liveOn, Function.update_of_ne hji]
      dsimp only
      rw [Function.update_of_ne hji]
      exact hl j hj
  | crash i retries hi =>
    by_cases hji : j = i
    · subst hji
      have hmir := h.mirrored j hj
      have hdisk : diskCommit (c.hosts j).files ≤ (c.hosts j).server.metadata.commitIndex := by
        have := (h.sim.accounted j hj).disk
        rwa [hmir.clean, perform_nil] at this
      obtain ⟨hcom, -⟩ := restart_committed (m := c.hosts j) retries hmir.disk
        hmir.logged.entries hdisk
      have hlog := (Node.restart_mirrored (n := c.hosts j) retries hmir.disk
        hmir.logged.entries).2
      have href := h'.refines hj
      have hfold := h'.folded hj
      dsimp only at href hfold
      rw [Function.update_self] at href hfold
      rw [liveOn, Function.update_self]
      dsimp only
      rw [Function.update_self]
      refine .born ?_ hfold fun b hb => ?_
      · rw [href.nodeId.trans (h.refines hj).nodeId.symm, href.peers.trans (h.refines hj).peers.symm]
        exact Node.bootEffects_marks _ _ _ _
      · rw [← Option.some.inj hb]
        exact ⟨hcom.le, hlog⟩
    · rw [liveOn, Function.update_of_ne hji]
      dsimp only
      rw [Function.update_of_ne hji]
      exact hl j hj
  | crashIn i g p retries x net m os hi hfetch hm => exact absurd hadm id
  | lose p hp => exact hl j hj

/-- **The applied state is the committed prefix.**  Every run has a chronicle, and in whatever
chronicle of it, at each release of the lock of each member since its start, the committed
entries are in its log, are applied, each once and in order, and stay; and each start has
rebuilt a part of what was committed before. -/
theorem applied_committed_prefix (h : Run (machine conf) Admissible tr c) :
    (∃ lives, Run (chronicle conf) (fun p x => p.1.Admissible x) tr (c, lives)) ∧
      ∀ lives, Run (chronicle conf) (fun p x => p.1.Admissible x) tr (c, lives) →
        ∀ i ∈ conf.members, (lives i).AppliesCommitted (c.hosts i).server := by
  refine ⟨h.withHistory, fun lives hlives => ?_⟩
  refine hlives.invariant (I := fun _ p => ∀ i ∈ conf.members,
    (p.2 i).AppliesCommitted (p.1.hosts i).server) (fun i hi => ?_) ?_
  · have hinit := refined_initial conf
    have href := hinit.refines hi
    refine .born ?_ (hinit.folded hi) fun b hb => absurd hb (by simp)
    rw [href.nodeId, href.peers]
    exact Node.bootEffects_marks _ _ _ _
  · rintro tr ⟨c, lives⟩ x ⟨c', lives'⟩ evs hrun hI hadm hs
    obtain ⟨hs', hlives'⟩ := Machine.withHistory_step hs
    obtain ⟨a, ha⟩ := refined (Run.forget hrun)
    rw [show lives' = _ from hlives']
    exact ha.lives_step hadm hs' hI

/-- A value is stored, and the leader crashes: it rebuilds its state machine from the two entries
that were committed. -/
theorem applied_committed_prefix_put : ∃ tr c, Run (machine .three) Admissible tr c ∧
    (c.hosts 1).boot = 1 ∧ (c.hosts 1).server.metadata.lastApplied = 2 ∧
    (∃ lives, Run (chronicle .three) (fun p x => p.1.Admissible x) tr (c, lives)) ∧
      ∀ lives, Run (chronicle .three) (fun p x => p.1.Admissible x) tr (c, lives) →
        ∀ i ∈ Config.three.members, (lives i).AppliesCommitted (c.hosts i).server := by
  let put : LogEntry := ⟨1, 2, (Request.put [107] [118]).command⟩
  obtain ⟨tr, c, hrun, h⟩ := Run.exists_of_exec admissible_of_admits (M := machine .three)
    (fun c _ => decide ((c.hosts 1).boot = 1 ∧ (c.hosts 1).server.metadata.lastApplied = 2))
    (firstLeader ++ [.run 1 (.thread (.propose (.put [107] [118])))] ++
      exchange 1 2 ⟨1, 1, 1, 1, [put], 1⟩ true ++ [.crash 1 []])
    (by decide +kernel)
  obtain ⟨hboot, happlied⟩ := of_decide_eq_true h
  exact ⟨tr, c, hrun, hboot, happlied, applied_committed_prefix hrun⟩

end Cluster

end RaftConsensus
