import RaftConsensus.Cluster
import RaftConsensus.Handlers

/-!
# Committing and applying, in closed form

The loop of `applyCommitted` applies a stretch of the log.  `applied s es` is what is left
when the entries `es` have been applied, and everything that is said about the loop later
is said about this closed form: what it changes, which marks it leaves, and that it leaves
the rest alone.

`commitScan_eq_some` is what `advanceCommit` has checked of an index it commits.
-/

namespace RaftConsensus

namespace Server

/-- The marks that applying `es` leaves when `k` entries have been applied before. -/
def appliedMarks : ℕ → List LogEntry → List Effect
  | _, [] => []
  | k, e :: es => .applied (k + 1) e.command :: appliedMarks (k + 1) es

/-- The server after the entries `es` have been applied. -/
def applied (s : Server) (es : List LogEntry) : Server :=
  { s with
    stateMachine := es.foldl (fun m e => m.apply e.command) s.stateMachine
    metadata := { s.metadata with lastApplied := s.metadata.lastApplied + es.length }
    effects := s.effects ++ appliedMarks s.metadata.lastApplied es }

theorem foldl_applyEntry (s : Server) (es : List LogEntry) : es.foldl applyEntry s = s.applied es := by
  induction es generalizing s with
  | nil => simp [applied, appliedMarks]
  | cons e es ih =>
    rw [List.foldl_cons, ih]
    simp [applied, applyEntry, emit, appliedMarks, Nat.add_assoc, Nat.add_comm 1]

/-- The entries that `applyCommitted` applies: those between `lastApplied` and the commit
index, as far as the log goes. -/
def unapplied (s : Server) : List LogEntry :=
  (s.logEntries.take s.metadata.commitIndex).drop s.metadata.lastApplied

theorem applyLoop_eq (s : Server) :
    applyLoop (s.metadata.commitIndex - s.metadata.lastApplied) s = s.applied s.unapplied := by
  have loop : ∀ fuel (s : Server), s.metadata.commitIndex - s.metadata.lastApplied = fuel →
      applyLoop fuel s = s.unapplied.foldl applyEntry s := by
    intro fuel
    induction fuel with
    | zero =>
      intro s hfuel
      have hnil : s.unapplied = [] := by
        rw [unapplied, List.drop_eq_nil_iff, List.length_take]
        omega
      rw [applyLoop, hnil, List.foldl_nil]
    | succ fuel ih =>
      intro s hfuel
      have hlt : s.metadata.lastApplied < s.metadata.commitIndex := by omega
      rw [applyLoop, if_pos hlt]
      rcases he : s.logEntries[s.metadata.lastApplied]? with _ | e
      · -- the log ends before the commit index
        have hlen : s.logEntries.length ≤ s.metadata.lastApplied := List.getElem?_eq_none_iff.mp he
        have hnil : s.unapplied = [] := by
          rw [unapplied, List.drop_eq_nil_iff, List.length_take]
          omega
        rw [hnil, List.foldl_nil]
      · have hcons : s.unapplied = e :: (s.applyEntry e).unapplied := by
          obtain ⟨hlen, rfl⟩ := List.getElem?_eq_some_iff.mp he
          rw [unapplied, List.drop_eq_getElem_cons (by rw [List.length_take]; omega),
            List.getElem_take]
          rfl
        rw [hcons, List.foldl_cons]
        refine ih _ ?_
        show s.metadata.commitIndex - (s.metadata.lastApplied + 1) = fuel
        omega
  rw [loop _ s rfl, foldl_applyEntry]

/-- **`applyCommitted` in closed form.** -/
theorem applyCommitted_eq (s : Server) :
    s.applyCommitted =
      if s.unapplied = [] then s else (s.applied s.unapplied).persistMetaData := by
  rw [applyCommitted, applyLoop_eq]
  rcases hes : s.unapplied with _ | ⟨e, es⟩
  · simp [applied, appliedMarks]
  · have hne : (s.applied (e :: es)).metadata.lastApplied ≠ s.metadata.lastApplied := by
      show s.metadata.lastApplied + (e :: es).length ≠ s.metadata.lastApplied
      rw [List.length_cons]
      omega
    rw [if_pos hne, if_neg (by simp)]

/-- The replay of `recover` in closed form. -/
theorem replayCommitted_eq (s : Server) :
    s.replayCommitted = s.applied (s.logEntries.take s.metadata.commitIndex) :=
  foldl_applyEntry s _

/-- **What the commit rule has checked** of the index it commits. -/
theorem commitScan_eq_some {s : Server} {k n : ℕ} (h : s.commitScan k = some n) :
    s.metadata.commitIndex < n ∧ n ≤ k ∧ s.termAt n = s.metadata.currentTerm ∧
      s.majority ≤ s.replicas n := by
  induction k with
  | zero => simp [commitScan] at h
  | succ k ih =>
    rw [commitScan] at h
    split at h
    · simp at h
    next hc =>
    split at h
    · obtain ⟨h1, h2, h3⟩ := ih h
      exact ⟨h1, by omega, h3⟩
    next ht =>
    split at h
    · next hm =>
      obtain rfl := Option.some.inj h
      exact ⟨by omega, le_rfl, not_not.mp ht, hm⟩
    · obtain ⟨h1, h2, h3⟩ := ih h
      exact ⟨h1, by omega, h3⟩

/-- The server after the leader has raised its commit index to `n`. -/
def commitTo (s : Server) (n : ℕ) : Server :=
  applyCommitted ({ s with metadata := { s.metadata with commitIndex := n } }.emit
    (.advanceCommit s.metadata.currentTerm n s.logEntries))

theorem applyCommitted_commitIndex (s : Server) :
    s.applyCommitted.metadata.commitIndex = s.metadata.commitIndex := by
  rw [applyCommitted_eq]
  split <;> rfl

theorem applyCommitted_logEntries (s : Server) : s.applyCommitted.logEntries = s.logEntries := by
  rw [applyCommitted_eq]
  split <;> rfl

/-- **What `advanceCommit` can do**: nothing, or commit an index that passes the rule. -/
theorem advanceCommit_cases (s : Server) :
    s.advanceCommit = s ∨
      ∃ n, s.role = .leader ∧ s.commitScan s.getLastLogIndex = some n ∧
        s.advanceCommit = s.commitTo n := by
  by_cases hrole : s.role = .leader
  · rcases hscan : s.commitScan s.getLastLogIndex with _ | n
    · left
      rw [advanceCommit, if_neg (by simp [hrole]), hscan]
    · right
      refine ⟨n, hrole, rfl, ?_⟩
      rw [advanceCommit, if_neg (by simp [hrole]), hscan]
      rfl
  · left
    rw [advanceCommit, if_pos hrole]

end Server

/-- The effects of a commit: marks, and writes of the given metadata. -/
def Effect.IsCommit (m : MetaData) : Effect → Prop
  | updateMetaData m' => m' = m
  | advanceCommit .. => True
  | followCommit .. => True
  | applied .. => True
  | _ => False

/-- Whether an effect is the mark of an applied entry. -/
def Effect.isApplied : Effect → Bool
  | applied .. => true
  | _ => false

namespace Server

/-- What a commit changes: the state machine, the two indices, and the effects. -/
structure Commits (s s' : Server) (es : List Effect) : Prop where
  eq : s' = { s with
    stateMachine := s'.stateMachine
    metadata := { s.metadata with
      commitIndex := s'.metadata.commitIndex
      lastApplied := s'.metadata.lastApplied }
    effects := s.effects ++ es }
  isCommit : ∀ e ∈ es, e.IsCommit s'.metadata

theorem Commits.refl (s : Server) : Commits s s [] := ⟨by simp, by simp⟩

theorem mem_appliedMarks {k : ℕ} {es : List LogEntry} {e : Effect} (he : e ∈ appliedMarks k es) :
    ∃ index command, e = .applied index command := by
  induction es generalizing k with
  | nil => simp [appliedMarks] at he
  | cons x es ih =>
    rcases List.mem_cons.mp he with rfl | he
    · exact ⟨_, _, rfl⟩
    · exact ih he

theorem filter_appliedMarks (k : ℕ) (es : List LogEntry) :
    (appliedMarks k es).filter Effect.isApplied = appliedMarks k es := by
  rw [List.filter_eq_self]
  intro e he
  obtain ⟨index, command, rfl⟩ := mem_appliedMarks he
  rfl

/-- `applyCommitted` marks the entries that it applies, in order and each once. -/
theorem applyCommitted_commits (s : Server) :
    ∃ es, Commits s s.applyCommitted es ∧
      es.filter Effect.isApplied = appliedMarks s.metadata.lastApplied s.unapplied := by
  rw [applyCommitted_eq]
  split
  · next hnil =>
    rw [hnil]
    exact ⟨[], Commits.refl s, rfl⟩
  · refine ⟨appliedMarks s.metadata.lastApplied s.unapplied ++
      [.updateMetaData (s.applied s.unapplied).metadata], ⟨?_, ?_⟩, ?_⟩
    · simp [applied, persistMetaData, emit]
    · intro e he
      rcases List.mem_append.mp he with he | he
      · obtain ⟨index, command, rfl⟩ := mem_appliedMarks he
        trivial
      · rw [List.mem_singleton.mp he]
        rfl
    · rw [List.filter_append, filter_appliedMarks]
      exact List.append_nil _

/-- Raising the commit index, with a mark, and applying: what `advanceCommit` and
`handleAppendEntries` have in common. -/
def raiseCommit (s : Server) (n : ℕ) (mark : Effect) : Server :=
  applyCommitted ({ s with metadata := { s.metadata with commitIndex := n } }.emit mark)

theorem raiseCommit_commits (s : Server) (n : ℕ) (mark : Effect) (hmark : ∀ m, mark.IsCommit m)
    (hnot : mark.isApplied = false) :
    ∃ es, Commits s (s.raiseCommit n mark) es ∧ es.filter Effect.isApplied =
      appliedMarks s.metadata.lastApplied ((s.logEntries.take n).drop s.metadata.lastApplied) := by
  obtain ⟨es, ⟨heq, hes⟩, hmarks⟩ := applyCommitted_commits
    ({ s with metadata := { s.metadata with commitIndex := n } }.emit mark)
  refine ⟨mark :: es, ⟨?_, ?_⟩, ?_⟩
  · rw [raiseCommit, heq]
    simp [emit]
  · intro x hx
    rcases List.mem_cons.mp hx with rfl | hx
    · exact hmark _
    · exact hes x hx
  · rw [List.filter_cons_of_neg (by simp [hnot]), hmarks]
    rfl

theorem advanceCommit_commits (s : Server) : ∃ es, Commits s s.advanceCommit es := by
  rcases s.advanceCommit_cases with heq | ⟨n, -, -, heq⟩
  · rw [heq]
    exact ⟨[], Commits.refl s⟩
  · rw [heq]
    obtain ⟨es, hc, -⟩ := s.raiseCommit_commits n
      (.advanceCommit s.metadata.currentTerm n s.logEntries) (fun _ => trivial) rfl
    exact ⟨es, hc⟩

theorem followCommit_commits (s : Server) (args : AppendEntriesArgs) :
    ∃ es, Commits s (s.followCommit args) es := by
  unfold followCommit
  split
  · dsimp only
    split
    · obtain ⟨es, hc, -⟩ := s.raiseCommit_commits _ (.followCommit _) (fun _ => trivial) rfl
      exact ⟨es, hc⟩
    · exact ⟨[], Commits.refl s⟩
  · exact ⟨[], Commits.refl s⟩

section Frame

variable {s s' : Server} {es : List Effect} (h : Commits s s' es)

include h

theorem Commits.nodeId : s'.nodeId = s.nodeId := by rw [h.eq]

theorem Commits.peers : s'.peers = s.peers := by rw [h.eq]

theorem Commits.role : s'.role = s.role := by rw [h.eq]

theorem Commits.running : s'.running = s.running := by rw [h.eq]

theorem Commits.logEntries : s'.logEntries = s.logEntries := by rw [h.eq]

theorem Commits.votesReceived : s'.votesReceived = s.votesReceived := by rw [h.eq]

theorem Commits.nextIndex : s'.nextIndex = s.nextIndex := by rw [h.eq]

theorem Commits.matchIndex : s'.matchIndex = s.matchIndex := by rw [h.eq]

theorem Commits.effects : s'.effects = s.effects ++ es := by rw [h.eq]

theorem Commits.currentTerm : s'.metadata.currentTerm = s.metadata.currentTerm := by rw [h.eq]

theorem Commits.votedFor : s'.metadata.votedFor = s.metadata.votedFor := by rw [h.eq]

end Frame

end Server

end RaftConsensus
