import RaftConsensus.CommitRule
import RaftConsensus.DiskLog

/-!
# `handleAppendEntries` against the receiver of Figure 2

The handler changes the log entry by entry, and each turn of its loop sees the log that the
turn before left.  The receiver of Figure 2 is stated at once: look for the first entry of
the message that the log lacks or holds in another term (`firstNew`), and replace what
stands from there on by the rest of the message (`mergedLog`).

`figureTwo` is the whole receiver in that form, on what Figure 2 speaks of (`Replica`).
`handleAppendEntries_figureTwo` is that the handler does the same, for any message whose
entries are numbered from `prevLogIndex + 1` on, that its writes leave the new log in
`logs.bin`, and that it applies the newly committed entries in order.
-/

namespace RaftConsensus

/-! ## The log of the receiver -/

/-- At position `k`, counted from zero, stands an entry of the term of `e`. -/
def Holds (log : List LogEntry) (k : ℕ) (e : LogEntry) : Prop :=
  log[k]?.map LogEntry.term = some e.term

instance (log : List LogEntry) (k : ℕ) (e : LogEntry) : Decidable (Holds log k e) :=
  inferInstanceAs (Decidable (_ = _))

/-- The entries carry the indices `prev + 1`, `prev + 2`, and so on. -/
def Numbered (prev : ℕ) (entries : List LogEntry) : Prop :=
  ∀ j e, entries[j]? = some e → e.index = prev + j + 1

/-- How many entries of the message stand before the first that the log lacks or holds in
another term. -/
def firstNew (log : List LogEntry) (prev : ℕ) (entries : List LogEntry) : ℕ :=
  (entries.zipIdx prev).findIdx fun p => decide (¬ Holds log p.2 p.1)

/-- The log of the receiver: the old one if it holds all entries of the message, and otherwise
the old one up to the first new entry and the message from there on. -/
def mergedLog (log : List LogEntry) (prev : ℕ) (entries : List LogEntry) : List LogEntry :=
  if firstNew log prev entries = entries.length then log
  else log.take (prev + firstNew log prev entries) ++ entries.drop (firstNew log prev entries)

theorem Numbered.head {prev : ℕ} {e : LogEntry} {es : List LogEntry} (h : Numbered prev (e :: es)) :
    e.index = prev + 1 := h 0 e rfl

theorem Numbered.tail {prev : ℕ} {e : LogEntry} {es : List LogEntry} (h : Numbered prev (e :: es)) :
    Numbered (prev + 1) es := by
  intro j x hj
  rw [h (j + 1) x hj]
  omega

theorem Indexed.append {log entries : List LogEntry} (h : Indexed log)
    (hnum : Numbered log.length entries) : Indexed (log ++ entries) := by
  intro k e hk
  rcases Nat.lt_or_ge k log.length with hlt | hge
  · rw [List.getElem?_append_left hlt] at hk
    exact h k e hk
  · rw [List.getElem?_append_right hge] at hk
    rw [hnum _ e hk]
    omega

/-- The end of a message is an index, or its previous entry is its end. -/
theorem Numbered.lt {prev : ℕ} {entries : List LogEntry} (h : Numbered prev entries)
    (hprev : prev < 2 ^ 64) (hindex : ∀ e ∈ entries, e.index < 2 ^ 64) :
    prev + entries.length < 2 ^ 64 := by
  rcases hlast : entries[entries.length - 1]? with _ | e
  · have := List.getElem?_eq_none_iff.mp hlast
    omega
  · have hlt := (List.getElem?_eq_some_iff.mp hlast).1
    have hnum := h _ e hlast
    have := hindex e (List.mem_of_getElem? hlast)
    omega

section Merge

variable {log : List LogEntry} {prev : ℕ} {e : LogEntry} {es : List LogEntry}

@[simp] theorem firstNew_nil (log : List LogEntry) (prev : ℕ) : firstNew log prev [] = 0 := rfl

theorem firstNew_cons_held (h : Holds log prev e) :
    firstNew log prev (e :: es) = firstNew log (prev + 1) es + 1 := by
  rw [firstNew, List.zipIdx_cons, List.findIdx_cons, decide_eq_false (not_not.mpr h)]
  rfl

theorem firstNew_cons_new (h : ¬ Holds log prev e) : firstNew log prev (e :: es) = 0 := by
  rw [firstNew, List.zipIdx_cons, List.findIdx_cons, decide_eq_true h]
  rfl

@[simp] theorem mergedLog_nil (log : List LogEntry) (prev : ℕ) : mergedLog log prev [] = log := rfl

theorem mergedLog_cons_held (h : Holds log prev e) :
    mergedLog log prev (e :: es) = mergedLog log (prev + 1) es := by
  rw [mergedLog, mergedLog, firstNew_cons_held h, List.length_cons, List.drop_succ_cons,
    Nat.add_assoc prev 1, Nat.add_comm 1]
  simp only [Nat.add_right_cancel_iff]

theorem mergedLog_cons_new (h : ¬ Holds log prev e) :
    mergedLog log prev (e :: es) = log.take prev ++ e :: es := by
  rw [mergedLog, firstNew_cons_new h, if_neg (by simp), Nat.add_zero, List.drop_zero]

/-- Where the log holds an entry, it is long enough. -/
theorem Holds.lt {k : ℕ} (h : Holds log k e) : k < log.length := by
  rcases hk : log[k]? with _ | x
  · rw [Holds, hk] at h
    exact absurd h (by simp)
  · exact (List.getElem?_eq_some_iff.mp hk).1

/-- The merged log reaches the end of the message. -/
theorem le_length_mergedLog {entries : List LogEntry} (hprev : prev ≤ log.length) :
    prev + entries.length ≤ (mergedLog log prev entries).length := by
  induction entries generalizing prev with
  | nil => simpa using hprev
  | cons e es ih =>
    by_cases h : Holds log prev e
    · have hreach : prev + 1 + es.length ≤ (mergedLog log (prev + 1) es).length := ih h.lt
      rw [mergedLog_cons_held h, List.length_cons]
      omega
    · rw [mergedLog_cons_new h, List.length_append, List.length_take_of_le hprev]

/-- The merged log is indexed. -/
theorem Indexed.mergedLog {entries : List LogEntry} (h : Indexed log) (hprev : prev ≤ log.length)
    (hnum : Numbered prev entries) : Indexed (mergedLog log prev entries) := by
  induction entries generalizing prev with
  | nil => exact h
  | cons e es ih =>
    by_cases hheld : Holds log prev e
    · rw [mergedLog_cons_held hheld]
      exact ih hheld.lt hnum.tail
    · rw [mergedLog_cons_new hheld]
      refine (h.take prev).append ?_
      rwa [List.length_take_of_le hprev]

/-- Entries numbered from the end of the log on are appended. -/
theorem Server.reconcile_append {entries : List LogEntry} (hnum : Numbered log.length entries)
    (b : Bool) : reconcile log b entries = some (log ++ entries, b || !entries.isEmpty) := by
  induction entries generalizing log b with
  | nil => rw [reconcile, List.append_nil, List.isEmpty_nil, Bool.not_true, Bool.or_false]
  | cons e es ih =>
    have hindex := hnum.head
    have hnum' : Numbered (log ++ [e]).length es := by
      rw [List.length_append, List.length_singleton]
      exact hnum.tail
    rw [reconcile, if_neg (by omega), ih hnum', List.append_assoc, List.singleton_append,
      Bool.true_or, List.isEmpty_cons, Bool.not_false, Bool.or_true]

/-- **The loop of the handler merges.**  It marks the log as changed if and only if some entry of
the message is new. -/
theorem Server.reconcile_eq_mergedLog {entries : List LogEntry} (hprev : prev ≤ log.length)
    (hnum : Numbered prev entries) :
    reconcile log false entries =
      some (mergedLog log prev entries, decide (firstNew log prev entries ≠ entries.length)) := by
  induction entries generalizing prev with
  | nil => rfl
  | cons e es ih =>
    have hindex := hnum.head
    by_cases h : Holds log prev e
    · have hlt := h.lt
      have hterm : log[prev]?.map LogEntry.term = some e.term := h
      rw [reconcile, if_pos (by omega), if_neg (by omega), hindex, Nat.add_sub_cancel,
        if_neg (not_not.mpr hterm), ih hlt hnum.tail, mergedLog_cons_held h, firstNew_cons_held h,
        List.length_cons]
      simp only [ne_eq, Nat.add_right_cancel_iff]
    · have hterm : log[prev]?.map LogEntry.term ≠ some e.term := h
      have hnum' : Numbered (log.take prev ++ [e]).length es := by
        rw [List.length_append, List.length_take_of_le hprev, List.length_singleton]
        exact hnum.tail
      have htrue : decide (firstNew log prev (e :: es) ≠ (e :: es).length) = true := by
        rw [firstNew_cons_new h]
        exact decide_eq_true (by simp)
      rw [htrue, mergedLog_cons_new h, reconcile]
      split
      · -- a conflict
        rw [if_neg (by omega), hindex, Nat.add_sub_cancel, if_pos hterm, reconcile_append hnum',
          List.append_assoc, List.singleton_append, Bool.true_or]
      · -- the log ends here
        have hfull : log.take prev = log := List.take_of_length_le (by omega)
        rw [hfull] at hnum' ⊢
        rw [reconcile_append hnum', List.append_assoc, List.singleton_append, Bool.true_or]

end Merge

/-! ## The receiver -/

/-- The part of a server that the receiver of Figure 2 reads and changes. -/
structure Replica where
  currentTerm : ℕ
  votedFor : ℕ
  role : Role
  leaderId : ℕ
  log : List LogEntry
  commitIndex : ℕ
  lastApplied : ℕ
  stateMachine : KVStateMachine

/-- The replica of a server. -/
def Server.replica (s : Server) : Replica where
  currentTerm := s.metadata.currentTerm
  votedFor := s.metadata.votedFor
  role := s.role
  leaderId := s.currentLeaderId
  log := s.logEntries
  commitIndex := s.metadata.commitIndex
  lastApplied := s.metadata.lastApplied
  stateMachine := s.stateMachine

/-- The leader of the term is recognised: a later term is adopted, and the vote of the old term is
dropped with it. -/
def Replica.follow (r : Replica) (args : AppendEntriesArgs) : Replica :=
  { r with
    currentTerm := args.term
    votedFor := if r.currentTerm < args.term then 0 else r.votedFor
    role := .follower
    leaderId := args.leaderId }

/-- The log has the entry that the new ones follow. -/
def Replica.HasPrevious (r : Replica) (args : AppendEntriesArgs) : Prop :=
  args.prevLogIndex = 0 ∨
    r.log[args.prevLogIndex - 1]?.map LogEntry.term = some args.prevLogTerm

instance (r : Replica) (args : AppendEntriesArgs) : Decidable (r.HasPrevious args) :=
  inferInstanceAs (Decidable (_ ∨ _))

/-- The message is merged into the log, and what it commits is applied. -/
def Replica.merge (r : Replica) (args : AppendEntriesArgs) : Replica :=
  let log := mergedLog r.log args.prevLogIndex args.entries
  let commitIndex := max r.commitIndex
    (min args.leaderCommit (args.prevLogIndex + args.entries.length))
  { r with
    log := log
    commitIndex := commitIndex
    lastApplied := commitIndex
    stateMachine := ((log.take commitIndex).drop r.commitIndex).foldl
      (fun m e => m.apply e.command) r.stateMachine }

/-- **The receiver of Figure 2**, which turns down a message of an old term, and a message whose
previous entry it lacks. -/
def figureTwo (r : Replica) (args : AppendEntriesArgs) : AppendEntriesReply × Replica :=
  if args.term < r.currentTerm then (⟨r.currentTerm, false⟩, r)
  else if r.HasPrevious args then (⟨args.term, true⟩, (r.follow args).merge args)
  else (⟨args.term, false⟩, r.follow args)

namespace Server

/-! ## The handler, step by step -/

/-- Steps 4 and 5: the log is merged, and written if it changed. -/
theorem storeEntries_eq {s : Server} {args : AppendEntriesArgs}
    (hprev : args.prevLogIndex ≤ s.logEntries.length)
    (hnum : Numbered args.prevLogIndex args.entries) :
    ∃ es, s.storeEntries args.entries = some
        { s with
          logEntries := mergedLog s.logEntries args.prevLogIndex args.entries
          effects := s.effects ++ es } ∧
      (logs fun _ => True).Reads s.logEntries es
        (mergedLog s.logEntries args.prevLogIndex args.entries) ∧
        es.filter Effect.isApplied = [] := by
  rw [storeEntries, reconcile_eq_mergedLog hprev hnum]
  by_cases hnew : firstNew s.logEntries args.prevLogIndex args.entries = args.entries.length
  · refine ⟨[], ?_, ?_, rfl⟩
    · rw [decide_eq_false (not_not.mpr hnew), List.append_nil]
    · rw [mergedLog, if_pos hnew]
      exact .nil _
  · rw [decide_eq_true hnew]
    exact ⟨[.rewriteLog _], rfl, .cons (fun _ _ => trivial) (.nil _), rfl⟩

/-- Step 6, when the log reaches the end of the message: the commit index goes up to what the leader
has committed of it, or stays. -/
theorem followCommit_cases {s : Server} (args : AppendEntriesArgs) (hlog : Indexed s.logEntries)
    (hreach : args.prevLogIndex + args.entries.length ≤ s.logEntries.length)
    (h64 : args.prevLogIndex + args.entries.length < 2 ^ 64) {m : ℕ}
    (hm : m = min args.leaderCommit (args.prevLogIndex + args.entries.length)) :
    (s.metadata.commitIndex < m ∧ s.followCommit args = s.raiseCommit m (.followCommit m)) ∨
      (m ≤ s.metadata.commitIndex ∧ s.followCommit args = s) := by
  have hnew : min (min args.leaderCommit ((args.prevLogIndex + args.entries.length) % 2 ^ 64))
      s.getLastLogIndex = m := by
    rw [Nat.mod_eq_of_lt h64, ← hm, hlog.getLastLogIndex, min_eq_left]
    exact hm.le.trans ((min_le_right _ _).trans hreach)
  rcases Nat.lt_or_ge s.metadata.commitIndex m with hlt | hge
  · refine Or.inl ⟨hlt, ?_⟩
    have hlt' : s.metadata.commitIndex < args.leaderCommit :=
      hlt.trans_le (hm.le.trans (min_le_left _ _))
    rw [followCommit, if_pos hlt']
    dsimp only
    rw [hnew, if_pos hlt]
    rfl
  · refine Or.inr ⟨hge, ?_⟩
    rw [followCommit]
    dsimp only
    rw [hnew, if_neg (Nat.not_lt.mpr hge), ite_self]

/-- The commit index after step 6, and what has been applied then. -/
theorem followCommit_eq {s : Server} (args : AppendEntriesArgs) (hlog : Indexed s.logEntries)
    (happ : s.metadata.lastApplied = s.metadata.commitIndex)
    (hreach : args.prevLogIndex + args.entries.length ≤ s.logEntries.length)
    (h64 : args.prevLogIndex + args.entries.length < 2 ^ 64) {n : ℕ}
    (hn : n = max s.metadata.commitIndex
      (min args.leaderCommit (args.prevLogIndex + args.entries.length))) :
    (s.followCommit args).metadata.commitIndex = n ∧
      ((s.followCommit args).metadata.lastApplied, (s.followCommit args).stateMachine) =
        (n, ((s.logEntries.take n).drop s.metadata.commitIndex).foldl
          (fun m e => m.apply e.command) s.stateMachine) ∧
      ∃ es, Commits s (s.followCommit args) es ∧ es.filter Effect.isApplied =
        appliedMarks s.metadata.commitIndex
          ((s.logEntries.take n).drop s.metadata.commitIndex) := by
  rcases followCommit_cases args hlog hreach h64 rfl with ⟨hlt, heq⟩ | ⟨hge, heq⟩
  · rw [max_eq_right hlt.le] at hn
    rw [← hn] at hlt heq
    have hle : n ≤ s.logEntries.length := hn.le.trans ((min_le_right _ _).trans hreach)
    have happlied := s.raiseCommit_applied (.followCommit n) hlt hle
    obtain ⟨es, hc, hmarks⟩ := s.raiseCommit_commits n (.followCommit n) (fun _ => trivial) rfl
    rw [heq]
    refine ⟨s.raiseCommit_commitIndex n _, ?_, es, hc, ?_⟩
    · rw [happlied, caughtUp, if_pos hlt, happ, max_eq_right hlt.le]
    · rw [hmarks, happ]
  · rw [max_eq_left hge] at hn
    have hnil : (s.logEntries.take n).drop s.metadata.commitIndex = [] := by
      rw [List.drop_eq_nil_iff, List.length_take]
      omega
    rw [heq, hnil, hn]
    exact ⟨rfl, Prod.ext happ rfl, [], Commits.refl s, rfl⟩

/-- Step 2 only follows the leader, and writes no log. -/
theorem recognizeLeader_replica {s : Server} (args : AppendEntriesArgs)
    (hterm : s.metadata.currentTerm ≤ args.term) :
    (s.recognizeLeader args).replica = s.replica.follow args ∧
      ∃ es, (s.recognizeLeader args).effects = s.effects ++ es ∧
        (∀ p, (logs fun _ => True).Reads p es p) ∧ es.filter Effect.isApplied = [] := by
  unfold recognizeLeader
  dsimp only
  split
  · next hlt =>
    refine ⟨?_, [.updateMetaData _], rfl, fun p => .cons trivial (.nil p), rfl⟩
    show Replica.mk _ _ _ _ _ _ _ _ = Replica.mk _ _ _ _ _ _ _ _
    rw [if_pos (show s.replica.currentTerm < args.term from hlt)]
    rfl
  · next hge =>
    have heq : s.metadata.currentTerm = args.term := by omega
    refine ⟨?_, [], (List.append_nil _).symm, fun p => .nil p, rfl⟩
    show Replica.mk _ _ _ _ _ _ _ _ = Replica.mk _ _ _ _ _ _ _ _
    rw [if_neg (show ¬ s.replica.currentTerm < args.term from hge), ← heq]
    rfl

/-- Step 3 is the check on the previous entry. -/
theorem prevMatches_iff (s : Server) (args : AppendEntriesArgs) :
    s.prevMatches args = true ↔ s.replica.HasPrevious args := by
  rw [prevMatches, Bool.or_eq_true, Bool.and_eq_true, decide_eq_true_eq, decide_eq_true_eq,
    decide_eq_true_eq, Replica.HasPrevious]
  rcases Nat.eq_zero_or_pos args.prevLogIndex with hzero | hpos
  · simp only [hzero, true_or]
  · constructor
    · rintro (hzero | ⟨hle, hterm⟩)
      · exact Or.inl hzero
      · exact Or.inr ((termAt_eq_iff hpos hle).mp hterm)
    · rintro (hzero | hterm)
      · exact Or.inl hzero
      · have hle : args.prevLogIndex ≤ s.logEntries.length := by
          rcases hk : s.logEntries[args.prevLogIndex - 1]? with _ | e
          · have hnone : s.replica.log[args.prevLogIndex - 1]? = none := hk
            rw [hnone] at hterm
            exact absurd hterm (by simp)
          · have := (List.getElem?_eq_some_iff.mp hk).1
            omega
        exact Or.inr ⟨hle, (termAt_eq_iff hpos hle).mpr hterm⟩

/-! ## The handler -/

/-- The part of `handleAppendEntries` after step 3. -/
theorem merge_eq {s : Server} {args : AppendEntriesArgs} (hlog : Indexed s.logEntries)
    (happ : s.metadata.lastApplied = s.metadata.commitIndex)
    (hprev : args.prevLogIndex ≤ s.logEntries.length)
    (hnum : Numbered args.prevLogIndex args.entries)
    (h64 : args.prevLogIndex + args.entries.length < 2 ^ 64) :
    ∃ s' s'' es, s.storeEntries args.entries = some s' ∧ s'.followCommit args = s'' ∧
      s'.metadata = s.metadata ∧ s''.replica = s.replica.merge args ∧
        s''.effects = s.effects ++ es ∧
          (logs fun _ => True).Reads s.logEntries es s''.logEntries ∧
            es.filter Effect.isApplied = appliedMarks s.metadata.commitIndex
              ((s''.logEntries.take s''.metadata.commitIndex).drop s.metadata.commitIndex) := by
  obtain ⟨es, hstore, hreads, hnone⟩ := storeEntries_eq (s := s) hprev hnum
  set s' : Server := { s with
    logEntries := mergedLog s.logEntries args.prevLogIndex args.entries
    effects := s.effects ++ es } with hs'
  obtain ⟨hcommit, happlied, es', hc, hmarks⟩ := followCommit_eq (s := s') args
    (hlog.mergedLog hprev hnum) happ (le_length_mergedLog hprev) h64 rfl
  have hlogEntries : (s'.followCommit args).logEntries =
      mergedLog s.logEntries args.prevLogIndex args.entries := hc.logEntries
  obtain ⟨hlast, hmachine⟩ := Prod.mk.inj happlied
  refine ⟨s', _, es ++ es', hstore, rfl, rfl, ?_, ?_, ?_, ?_⟩
  · have hleader : (s'.followCommit args).currentLeaderId = s.currentLeaderId := by rw [hc.eq]
    rw [replica, hc.currentTerm, hc.votedFor, hc.role, hleader, hlogEntries, hcommit, hlast,
      hmachine]
    rfl
  · rw [hc.effects, hs', List.append_assoc]
  · rw [hlogEntries]
    refine hreads.append (Monitor.Reads.idle fun e he => ?_)
    have := hc.isCommit e he
    rcases e with _ | _ | _ | _ | _ | _ | _ | _ | _ | _ | _ | _
    all_goals first | exact absurd this id | exact ⟨trivial, rfl⟩
  · rw [List.filter_append, hnone, List.nil_append, hmarks, hlogEntries, hcommit]

/-- **`handleAppendEntries` is the receiver of Figure 2.**  For a message whose entries are numbered
from `prevLogIndex + 1` on, the handler stays inside the log, and its reply and the replica that it
leaves are those of Figure 2.  A message of an old term changes nothing at all.  If the log file
held the log before and no file operation fails, it holds the new log then; and the entries
between the old and the new commit index are applied in order, each once. -/
theorem handleAppendEntries_figureTwo {s : Server} {args : AppendEntriesArgs}
    (hlog : Indexed s.logEntries) (happ : s.metadata.lastApplied = s.metadata.commitIndex)
    (hnum : Numbered args.prevLogIndex args.entries) (hprev : args.prevLogIndex < 2 ^ 64)
    (hindex : ∀ e ∈ args.entries, e.index < 2 ^ 64) :
    ∃ reply s' es, s.handleAppendEntries args = some (reply, s') ∧
      (reply, s'.replica) = figureTwo s.replica args ∧
        (args.term < s.metadata.currentTerm → s' = s) ∧ s'.effects = s.effects ++ es ∧
          (∀ files, logBytes files = serializeLog s.logEntries →
            logBytes (perform es files) = serializeLog s'.logEntries) ∧
            es.filter Effect.isApplied = appliedMarks s.metadata.commitIndex
              ((s'.logEntries.take s'.metadata.commitIndex).drop s.metadata.commitIndex) := by
  have hnil : (s.logEntries.take s.metadata.commitIndex).drop s.metadata.commitIndex = [] := by
    rw [List.drop_eq_nil_iff, List.length_take]
    omega
  rcases Nat.lt_or_ge args.term s.metadata.currentTerm with hstale | hterm
  · -- step 1
    refine ⟨⟨s.metadata.currentTerm, false⟩, s, [], ?_, ?_, fun _ => rfl,
      (List.append_nil _).symm, fun _ h => h, ?_⟩
    · rw [handleAppendEntries, if_pos hstale]
    · rw [figureTwo, if_pos (show args.term < s.replica.currentTerm from hstale)]
      rfl
    · rw [hnil]
      rfl
  · have hnot : ¬ args.term < s.metadata.currentTerm := Nat.not_lt.mpr hterm
    have hnot' : ¬ args.term < s.replica.currentTerm := hnot
    obtain ⟨hfollow, es, heffects, hreads, hnone⟩ := recognizeLeader_replica args hterm
    have hlogs : (s.recognizeLeader args).logEntries = s.logEntries :=
      recognizeLeader_logEntries s args
    have hterm' : (s.recognizeLeader args).metadata.currentTerm = args.term :=
      congrArg Replica.currentTerm hfollow
    have hcommit : (s.recognizeLeader args).metadata.commitIndex = s.metadata.commitIndex :=
      congrArg Replica.commitIndex hfollow
    have happ' : (s.recognizeLeader args).metadata.lastApplied =
        (s.recognizeLeader args).metadata.commitIndex :=
      (congrArg Replica.lastApplied hfollow).trans (happ.trans hcommit.symm)
    rw [handleAppendEntries, if_neg hnot, figureTwo, if_neg hnot']
    dsimp only
    rw [prevMatches_recognizeLeader]
    by_cases hhas : s.replica.HasPrevious args
    · -- steps 4 to 7
      have hmatches := (s.prevMatches_iff args).mpr hhas
      have hle : args.prevLogIndex ≤ s.logEntries.length := by
        simp only [prevMatches, Bool.or_eq_true, Bool.and_eq_true, decide_eq_true_eq] at hmatches
        rcases hmatches with hzero | ⟨hle, -⟩
        · omega
        · exact hle
      obtain ⟨s', s'', es', hstore, hcommitted, hmeta, hreplica, heffects', hreads', hmarks⟩ :=
        merge_eq (hlogs ▸ hlog) happ' (hlogs ▸ hle) hnum (hnum.lt hprev hindex)
      rw [if_pos hmatches, if_pos hhas, hstore, Option.map_some, hcommitted, hmeta, hterm']
      refine ⟨_, s'', es ++ es', rfl, ?_, fun h => absurd h hnot, ?_, fun files hfiles => ?_, ?_⟩
      · rw [hreplica, hfollow]
      · rw [heffects', heffects, List.append_assoc]
      · exact logBytes_perform ((hreads _).append (hlogs ▸ hreads')) hfiles
      · rw [List.filter_append, hnone, List.nil_append, hmarks, hcommit]
    · -- step 3
      have hmatches : s.prevMatches args ≠ true := fun h => hhas ((s.prevMatches_iff args).mp h)
      rw [if_neg hmatches, if_neg hhas, hterm']
      refine ⟨_, _, es, rfl, ?_, fun h => absurd h hnot, heffects, fun files hfiles => ?_, ?_⟩
      · rw [hfollow]
      · rw [hlogs]
        exact logBytes_perform (hreads _) hfiles
      · rw [hnone, hlogs, hcommit, hnil]
        rfl

end Server

/-- An entry that sets the key `1` to the value `v`. -/
def putEntry (term index : ℕ) (v : UInt8) : LogEntry := ⟨term, index, (Request.put [1] [v]).command⟩

/-- A follower with three entries of term 1, the first of them committed. -/
def followerOfThree : Server :=
  { Server.new 2 [1, 3] with
    metadata := ⟨1, 1, 1, 1⟩
    logEntries := [putEntry 1 1 1, putEntry 1 2 2, putEntry 1 3 3] }

/-- A message of term 2 that repeats the second entry and replaces the third. -/
def conflictingArgs : AppendEntriesArgs :=
  ⟨2, 3, 1, 1, [putEntry 1 2 2, putEntry 2 3 4], 7⟩

/-- The conflicting entry is replaced, and all entries are committed. -/
theorem handleAppendEntries_figureTwo_conflict :
    ∃ reply s', followerOfThree.handleAppendEntries conflictingArgs = some (reply, s') ∧
      reply = ⟨2, true⟩ ∧ s'.logEntries = [putEntry 1 1 1, putEntry 1 2 2, putEntry 2 3 4] ∧
        s'.metadata.commitIndex = 3 := by
  have hlog : Indexed followerOfThree.logEntries :=
    Indexed.append_singleton (Indexed.append_singleton (Indexed.append_singleton Indexed.nil rfl) rfl)
      rfl
  have hnum : Numbered conflictingArgs.prevLogIndex conflictingArgs.entries := by
    rintro (_ | _ | j) e hj
    · rw [← Option.some.inj hj]
      rfl
    · rw [← Option.some.inj hj]
      rfl
    · exact absurd hj (by simp [conflictingArgs])
  have hindex : ∀ e ∈ conflictingArgs.entries, e.index < 2 ^ 64 := by decide
  obtain ⟨reply, s', es, hr, hfigure, -⟩ :=
    Server.handleAppendEntries_figureTwo hlog rfl hnum (by decide) hindex
  obtain ⟨hreply, hreplica⟩ := Prod.mk.inj hfigure
  exact ⟨reply, s', hr, hreply, congrArg Replica.log hreplica, congrArg Replica.commitIndex hreplica⟩

end RaftConsensus
