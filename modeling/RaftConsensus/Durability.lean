import RaftConsensus.Decoder
import RaftConsensus.Exchange
import RaftConsensus.Faults

/-!
# Promises and what is on disk

A granted vote promises that the node will not vote again in that term.  A successful
`AppendEntries` promises that the node holds the entries, and so does a leader that counts
itself for an index.  A node that is started again keeps these promises only if they are on
disk.

The source makes the storage calls at the right moments and then does not look at what they
return.  So each promise is kept exactly if the call that backs it succeeded, or if the disk
happened to hold what it promises before.  A log file may end with a part of an entry, which
`readLogs` leaves unread; then what an append makes readable depends on both (`Legible`).

* `promises_durable_iff`: the exact condition for each of the three promises.
* `promises_not_durable`: one failing `open` breaks each of them.
-/

namespace RaftConsensus

/-! ## Carrying out effects when calls fail -/

theorem performWith_append (o : ℕ → ℕ → Outcome) (es es' : List Effect) (files : Files) :
    performWith o (es ++ es') files =
      performWith (fun n => o (es.length + n)) es' (performWith o es files) := by
  induction es generalizing o files with
  | nil =>
    simp only [List.nil_append, List.length_nil, Nat.zero_add]
    rfl
  | cons e es ih =>
    rw [List.cons_append, performWith, performWith, ih]
    simp only [List.length_cons, Nat.add_right_comm]

/-- A file that none of the effects can change stays as it is. -/
theorem performWith_of_not_touched {name : FileName} {es : List Effect}
    (h : ∀ e ∈ es, ∀ c ∈ e.calls, name ∉ c.touches) (o : ℕ → ℕ → Outcome) (files : Files) :
    performWith o es files name = files name := by
  induction es generalizing o files with
  | nil => rfl
  | cons e es ih =>
    rw [performWith, ih fun x hx => h x (List.mem_cons_of_mem e hx)]
    exact runCalls_of_not_touched (h e List.mem_cons_self) _ _

/-! ## Votes -/

/-- A granted vote is on disk, with its term. -/
def VoteDurable (s : Server) (files : Files) (o : ℕ → ℕ → Outcome) (args : RequestVoteArgs) :
    Prop :=
  (s.handleRequestVote args).1.voteGranted = true →
    diskBallot (performWith o (s.handleRequestVote args).2.effects files) =
      (args.term, args.candidateId)

/-- The vote is granted. -/
def Grants (s : Server) (args : RequestVoteArgs) : Prop :=
  s.metadata.currentTerm ≤ args.term ∧
    (if s.metadata.currentTerm < args.term then s.stepDown args.term else s).canVote args = true

/-- The metadata that a granted vote writes. -/
def voteMetaData (s : Server) (args : RequestVoteArgs) : MetaData :=
  { s.metadata with currentTerm := args.term, votedFor := args.candidateId }

/-- The vote is not granted; or the last write of metadata succeeded; or the file could not be
opened at all and held the vote already. -/
def VoteWritten (s : Server) (files : Files) (o : ℕ → ℕ → Outcome) (args : RequestVoteArgs) :
    Prop :=
  Grants s args →
    if s.metadata.currentTerm < args.term then
      succeeds (o 1) (updateMetaData (voteMetaData s args)) = true ∨
        o 0 0 = .fail ∧ o 1 0 = .fail ∧ diskBallot files = (args.term, args.candidateId)
    else
      succeeds (o 0) (updateMetaData (voteMetaData s args)) = true ∨
        o 0 0 = .fail ∧ diskBallot files = (args.term, args.candidateId)

theorem Server.handleRequestVote_of_grants {s : Server} {args : RequestVoteArgs}
    (h : Grants s args) : (s.handleRequestVote args).1.voteGranted = true ∧
      (s.handleRequestVote args).2.effects = s.effects ++
        ((if s.metadata.currentTerm < args.term then
          [.updateMetaData { s.metadata with currentTerm := args.term, votedFor := 0 }] else []) ++
        [.updateMetaData (voteMetaData s args), .votedFor args.candidateId args.term]) := by
  obtain ⟨hterm, hcan⟩ := h
  unfold handleRequestVote
  rw [if_neg (by omega)]
  dsimp only
  rw [if_pos hcan]
  refine ⟨rfl, ?_⟩
  split
  · simp [grantVote, stepDown, persistMetaData, emit, voteMetaData]
  · have heq : s.metadata.currentTerm = args.term := by omega
    simp [grantVote, persistMetaData, emit, voteMetaData, heq]

theorem Server.grants_of_voteGranted {s : Server} {args : RequestVoteArgs}
    (h : (s.handleRequestVote args).1.voteGranted = true) : Grants s args := by
  generalize hr : s.handleRequestVote args = r at h
  cases handleRequestVote_way hr with
  | old | denied => exact absurd h (by simp)
  | granted hterm hcan => exact ⟨not_lt.mp hterm, hcan⟩

/-- The ballot on disk after a write of a vote. -/
theorem diskBallot_vote_iff {m : MetaData} (ht : m.currentTerm < 2 ^ 64) (hv : m.votedFor < 2 ^ 64)
    (hv0 : m.votedFor ≠ 0) (o : ℕ → Outcome) (files : Files) :
    diskBallot (runCalls o (updateMetaData m) files).2 = (m.currentTerm, m.votedFor) ↔
      succeeds o (updateMetaData m) = true ∨
        o 0 = .fail ∧ diskBallot files = (m.currentTerm, m.votedFor) := by
  have hne : ((0, 0) : ℕ × ℕ) ≠ (m.currentTerm, m.votedFor) :=
    fun h => hv0 (Prod.mk.inj h).2.symm
  rw [diskBallot_updateMetaData o ht hv]
  by_cases hopen : o 0 = .fail
  · have hnot : succeeds o (updateMetaData m) = false := by
      simp [updateMetaData, succeeds, hopen, Syscall.completes]
    simp [hopen, hnot]
  · rcases hdone : succeeds o (updateMetaData m) with _ | _
    · simp [hopen, hne]
    · simp [hopen]

/-- **When a granted vote is on disk.** -/
theorem voteDurable_iff {s : Server} (hs : s.effects = []) (files : Files) (o : ℕ → ℕ → Outcome)
    {args : RequestVoteArgs} (ht : args.term < 2 ^ 64) (hc : args.candidateId < 2 ^ 64)
    (hc0 : args.candidateId ≠ 0) : VoteDurable s files o args ↔ VoteWritten s files o args := by
  have hwritten : Grants s args → (diskBallot (performWith o (s.handleRequestVote args).2.effects
      files) = (args.term, args.candidateId) ↔
        if s.metadata.currentTerm < args.term then
          succeeds (o 1) (updateMetaData (voteMetaData s args)) = true ∨
            o 0 0 = .fail ∧ o 1 0 = .fail ∧ diskBallot files = (args.term, args.candidateId)
        else
          succeeds (o 0) (updateMetaData (voteMetaData s args)) = true ∨
            o 0 0 = .fail ∧ diskBallot files = (args.term, args.candidateId)) := by
    intro hgrants
    rw [(Server.handleRequestVote_of_grants hgrants).2, hs, List.nil_append]
    split
    · -- the term is adopted first, with a write of its own that clears the vote
      have hadopt : diskBallot (runCalls (o 0) (updateMetaData
          { s.metadata with currentTerm := args.term, votedFor := 0 }) files).2 =
            (args.term, args.candidateId) ↔
          o 0 0 = .fail ∧ diskBallot files = (args.term, args.candidateId) := by
        rw [diskBallot_updateMetaData (o 0) ht (Nat.two_pow_pos 64)]
        by_cases hopen : o 0 0 = .fail
        · simp [hopen]
        · rw [if_neg hopen]
          constructor
          · intro h
            split at h <;> exact absurd (Prod.mk.inj h).2.symm hc0
          · exact fun h => absurd h.1 hopen
      refine (diskBallot_vote_iff (m := voteMetaData s args) ht hc hc0 (o 1) _).trans ?_
      exact or_congr Iff.rfl ((and_congr Iff.rfl hadopt).trans and_left_comm)
    · exact diskBallot_vote_iff (m := voteMetaData s args) ht hc hc0 (o 0) files
  constructor
  · exact fun h hgrants =>
      (hwritten hgrants).mp (h (Server.handleRequestVote_of_grants hgrants).1)
  · exact fun h hgranted =>
      (hwritten (Server.grants_of_voteGranted hgranted)).mpr
        (h (Server.grants_of_voteGranted hgranted))

/-! ## Entries -/

/-- What a follower `s` is asked to store: the entries after `prevLogIndex` of an indexed log `L`
that matches its own.  All entries are well formed, as those of a message always are. -/
structure Incoming (s : Server) (L : List LogEntry) (args : AppendEntriesArgs) : Prop where
  entries : args.entries = L.drop args.prevLogIndex
  prev_le : args.prevLogIndex ≤ L.length
  prev_term : args.prevLogIndex ≠ 0 →
    L[args.prevLogIndex - 1]?.map LogEntry.term = some args.prevLogTerm
  indexed : Indexed L
  log_indexed : Indexed s.logEntries
  matching : Matching s.logEntries L
  wellFormed : ∀ e ∈ args.entries, e.WellFormed
  log_wellFormed : ∀ e ∈ s.logEntries, e.WellFormed

/-- The number of the storage call that rewrites the log: a write of metadata comes first if the
term of the message is new. -/
def rewriteNumber (s : Server) (args : AppendEntriesArgs) : ℕ :=
  if s.metadata.currentTerm < args.term then 1 else 0

/-- The entries of an acknowledged message can be read back from disk. -/
def EntriesDurable (s : Server) (files : Files) (o : ℕ → ℕ → Outcome) (args : AppendEntriesArgs) :
    Prop :=
  ∀ r, s.handleAppendEntries args = some r → r.1.success = true →
    ∀ e ∈ args.entries, e ∈ (readLogs (performWith o r.2.effects files)).1

/-- The message is not accepted; or it brings something new and `rewriteLog` succeeds; or the
entries could be read back from disk before. -/
def EntriesWritten (s : Server) (files : Files) (o : ℕ → ℕ → Outcome) (args : AppendEntriesArgs) :
    Prop :=
  Accepts s args →
    (¬ ∀ e ∈ args.entries, e ∈ s.logEntries) ∧
        succeeds (o (rewriteNumber s args))
          (rewriteLog (s.logEntries.take args.prevLogIndex ++ args.entries)) = true ∨
      ∀ e ∈ args.entries, e ∈ (readLogs files).1

/-- A follower that has every entry of a message has the log that they come from. -/
theorem Incoming.isPrefix_iff {s : Server} {L : List LogEntry} {args : AppendEntriesArgs}
    (h : Incoming s L args) (hacc : Accepts s args) :
    L <+: s.logEntries ↔ ∀ e ∈ args.entries, e ∈ s.logEntries := by
  constructor
  · intro hpre e he
    rw [h.entries] at he
    exact hpre.subset (List.mem_of_mem_drop he)
  · intro hall
    have htake := Server.take_eq_of_prevMatches h.matching h.prev_le h.prev_term hacc.2
    rcases Nat.lt_or_ge args.prevLogIndex L.length with hlt | hge
    · -- the last entry stands where its index says, and by log matching all others before it
      have hlast : L[L.length - 1]? = some L[L.length - 1] := List.getElem?_eq_getElem (by omega)
      have hmem : L[L.length - 1] ∈ args.entries := by
        rw [h.entries]
        refine List.mem_of_getElem? (i := L.length - 1 - args.prevLogIndex) ?_
        rw [List.getElem?_drop, ← hlast]
        congr 1
        omega
      obtain ⟨j, hj⟩ := List.mem_iff_getElem?.mp (hall _ hmem)
      have hindex := h.log_indexed j _ hj
      rw [h.indexed _ _ hlast] at hindex
      obtain rfl : j = L.length - 1 := by omega
      have hsame := h.matching.take_eq hj hlast
      rw [Nat.sub_add_cancel (by omega), List.take_length] at hsame
      rw [← hsame]
      exact List.take_prefix _ _
    · rw [List.take_of_length_le hge] at htake
      rw [← htake]
      exact List.take_prefix _ _

/-- The effects of a commit do not touch the log. -/
theorem Effect.IsCommit.not_logs {m : MetaData} {e : Effect} (h : e.IsCommit m) :
    ∀ c ∈ e.calls, .logs ∉ c.touches := by
  rcases e with _ | _ | _ | _ | _ | _ | _ | _ | _ | _ | _ | _
  all_goals first
    | exact absurd h id
    | exact Effect.calls_not_logs (by simp) (by simp) (by simp) (by simp)

theorem Server.recognizeLeader_effects (s : Server) (args : AppendEntriesArgs) :
    (s.recognizeLeader args).effects = s.effects ++
      if s.metadata.currentTerm < args.term then
        [.updateMetaData { s.metadata with currentTerm := args.term, votedFor := 0 }] else [] := by
  unfold recognizeLeader
  dsimp only
  split
  · rfl
  · rw [List.append_nil]

/-- **What an accepted message makes a follower do**: it may adopt the term, it rewrites its log if
the message brings something new, and it may commit. -/
theorem Incoming.effects {s : Server} (hs : s.effects = []) {L : List LogEntry}
    {args : AppendEntriesArgs} (h : Incoming s L args) {r : AppendEntriesReply × Server}
    (hr : s.handleAppendEntries args = some r) (hsuccess : r.1.success = true) :
    ∃ es, (∀ e ∈ es, ∀ c ∈ e.calls, FileName.logs ∉ c.touches) ∧ r.2.effects =
      (if s.metadata.currentTerm < args.term then
        [.updateMetaData { s.metadata with currentTerm := args.term, votedFor := 0 }] else []) ++
      ((if ∀ e ∈ args.entries, e ∈ s.logEntries then []
        else [.rewriteLog (s.logEntries.take args.prevLogIndex ++ args.entries)]) ++ es) := by
  classical
  obtain ⟨hterm, hprev, -⟩ := Server.handleAppendEntries_success hr hsuccess
  have htake := Server.take_eq_of_prevMatches h.matching h.prev_le h.prev_term hprev
  unfold Server.handleAppendEntries at hr
  rw [if_neg (by omega)] at hr
  dsimp only at hr
  rw [if_pos (by rw [Server.prevMatches_recognizeLeader, hprev])] at hr
  obtain ⟨s', hs', rfl⟩ := Option.map_eq_some_iff.mp hr
  obtain ⟨es, hc⟩ := s'.followCommit_commits args
  refine ⟨es, fun e he => (hc.isCommit e he).not_logs, ?_⟩
  have hstore : s'.effects = (s.recognizeLeader args).effects ++
      if ∀ e ∈ args.entries, e ∈ s.logEntries then []
      else [.rewriteLog (s.logEntries.take args.prevLogIndex ++ args.entries)] := by
    have hdrop := Server.reconcile_drop h.indexed h.matching htake false
    rw [Server.storeEntries, Server.recognizeLeader_logEntries, h.entries, hdrop] at hs'
    by_cases hpre : L <+: s.logEntries
    · rw [if_pos hpre] at hs'
      rw [if_pos ((h.isPrefix_iff ⟨hterm, hprev⟩).mp hpre), List.append_nil,
        ← Option.some.inj hs']
    · rw [if_neg hpre] at hs'
      rw [if_neg fun hall => hpre ((h.isPrefix_iff ⟨hterm, hprev⟩).mpr hall), htake, h.entries,
        List.take_append_drop, ← Option.some.inj hs']
      rfl
  rw [hc.effects, hstore, Server.recognizeLeader_effects, hs, List.nil_append, List.append_assoc]

/-- The log file after an accepted message. -/
theorem Incoming.readLogs_after {s : Server} (hs : s.effects = []) (files : Files)
    (o : ℕ → ℕ → Outcome) {L : List LogEntry} {args : AppendEntriesArgs} (h : Incoming s L args)
    {r : AppendEntriesReply × Server} (hr : s.handleAppendEntries args = some r)
    (hsuccess : r.1.success = true) :
    (readLogs (performWith o r.2.effects files)).1 =
      if (¬ ∀ e ∈ args.entries, e ∈ s.logEntries) ∧
        succeeds (o (rewriteNumber s args))
          (rewriteLog (s.logEntries.take args.prevLogIndex ++ args.entries)) = true then
        s.logEntries.take args.prevLogIndex ++ args.entries
      else (readLogs files).1 := by
  have hwf : ∀ e ∈ s.logEntries.take args.prevLogIndex ++ args.entries, e.WellFormed := by
    intro e he
    rcases List.mem_append.mp he with he | he
    · exact h.log_wellFormed e (List.mem_of_mem_take he)
    · exact h.wellFormed e he
  obtain ⟨es, hes, heffects⟩ := h.effects hs hr hsuccess
  set adopt : List Effect := if s.metadata.currentTerm < args.term then
    [.updateMetaData { s.metadata with currentTerm := args.term, votedFor := 0 }] else []
    with hadopt
  have hadopt' : ∀ e ∈ adopt, ∀ c ∈ e.calls, FileName.logs ∉ c.touches := by
    intro e he
    rw [hadopt] at he
    split at he
    · rw [List.mem_singleton.mp he]
      exact Effect.calls_not_logs (by simp) (by simp) (by simp) (by simp)
    · exact absurd he (by simp)
  have hnumber : adopt.length = rewriteNumber s args := by
    rw [hadopt, rewriteNumber]
    split <;> rfl
  have hafter : ∀ (o : ℕ → ℕ → Outcome) (files : Files),
      logBytes (performWith o es files) = logBytes files :=
    fun o files => logBytes_congr (performWith_of_not_touched hes o files)
  have hbefore : logBytes (performWith o adopt files) = logBytes files :=
    logBytes_congr (performWith_of_not_touched hadopt' o files)
  rw [heffects, performWith_append, performWith_append]
  by_cases hall : ∀ e ∈ args.entries, e ∈ s.logEntries
  · rw [if_pos hall, if_neg fun hnew => hnew.1 hall, readLogs_eq, hafter, readLogs_eq]
    exact congrArg (fun bytes => ((deserializeLogEntry bytes).getD ([], 0)).1) hbefore
  · rw [if_neg hall]
    have hrewrite := logBytes_rewriteLog (o (rewriteNumber s args))
      (s.logEntries.take args.prevLogIndex ++ args.entries) (performWith o adopt files)
    rw [hbefore] at hrewrite
    split
    · next hnew =>
      rw [if_pos hnew.2] at hrewrite
      refine congrArg Prod.fst (readLogs_of_logBytes ?_ hwf)
      rw [hafter, ← hrewrite, ← hnumber]
      rfl
    · next hold =>
      rw [if_neg fun hdone => hold ⟨hall, hdone⟩] at hrewrite
      rw [readLogs_eq, hafter, readLogs_eq, ← hrewrite, ← hnumber]
      rfl

/-- **When the entries of an acknowledged message are on disk.** -/
theorem entriesDurable_iff {s : Server} (hs : s.effects = []) (files : Files)
    (o : ℕ → ℕ → Outcome) {L : List LogEntry} {args : AppendEntriesArgs} (h : Incoming s L args) :
    EntriesDurable s files o args ↔ EntriesWritten s files o args := by
  constructor
  · intro hdurable hacc
    have htake := Server.take_eq_of_prevMatches h.matching h.prev_le h.prev_term hacc.2
    have hrecon : ∃ log changed,
        Server.reconcile s.logEntries false args.entries = some (log, changed) := by
      rw [h.entries, Server.reconcile_drop h.indexed h.matching htake]
      split
      · exact ⟨_, _, rfl⟩
      · exact ⟨_, _, rfl⟩
    obtain ⟨log, changed, hrecon⟩ := hrecon
    obtain ⟨r, hr, hsuccess, -⟩ := Server.handleAppendEntries_accept hacc.1 hacc.2 hrecon
    have hread := hdurable r hr hsuccess
    rw [h.readLogs_after hs files o hr hsuccess] at hread
    split at hread
    · next hnew => exact Or.inl hnew
    · exact Or.inr hread
  · intro hwritten r hr hsuccess e he
    obtain ⟨hterm, hprev, -⟩ := Server.handleAppendEntries_success hr hsuccess
    rw [h.readLogs_after hs files o hr hsuccess]
    split
    · exact List.mem_append_right _ he
    · next hold => exact (hwritten ⟨hterm, hprev⟩).resolve_left hold e he

/-! ## An append to the log file -/

/-- The bytes at the end of `logs.bin` that `readLogs` does not use: what a torn append has left. -/
def unread (files : Files) : Bytes := (logBytes files).drop (readLogs files).2

/-- What `writelog` puts at the end of `logs.bin`: the entry if it succeeds, and else nothing or a
first part of it. -/
def landed (o : ℕ → Outcome) (e : LogEntry) : Bytes :=
  if o 0 = .fail then []
  else
    match o 1 with
    | .ok => serializeLogEntry e
    | .fail => []
    | .short k => (serializeLogEntry e).take k

/-- The bytes begin with entries, and `x` is one of them. -/
def Legible (bytes : Bytes) (x : LogEntry) : Prop := ∃ es, logCode.IsRun es bytes ∧ x ∈ es

theorem landed_isPrefix (o : ℕ → Outcome) (e : LogEntry) : landed o e <+: serializeLogEntry e := by
  unfold landed
  split
  · exact List.nil_prefix
  split
  · exact List.prefix_rfl
  · exact List.nil_prefix
  · exact List.take_prefix _ _

/-- `writelog` succeeds if all of the entry lands. -/
theorem succeeds_writelog_iff (o : ℕ → Outcome) (e : LogEntry) :
    succeeds o (writelog e) = true ↔ landed o e = serializeLogEntry e := by
  have hne : ([] : Bytes) ≠ serializeLogEntry e := by
    intro hnil
    have hlen := congrArg List.length hnil
    rw [length_serializeLogEntry, List.length_nil] at hlen
    omega
  unfold landed
  rcases hopen : o 0 with _ | _ | j <;> rcases hwrite : o 1 with _ | _ | k <;>
    simp [writelog, succeeds, hopen, hwrite, Syscall.completes, hne]

theorem logBytes_writelog (o : ℕ → Outcome) (e : LogEntry) (files : Files) :
    logBytes (runCalls o (writelog e) files).2 = logBytes files ++ landed o e := by
  by_cases hopen : o 0 = .fail
  · simp [landed, writelog, runCalls, Syscall.run, hopen]
  · have hc : Syscall.run (o 0) files (.openAppend .logs) =
        (true, Function.update files .logs (some (logBytes files))) := by
      simp [Syscall.run, hopen, logBytes]
    rw [landed, if_neg hopen, writelog, runCalls, hc]
    dsimp only
    rw [runCalls_singleton_snd, Nat.zero_add]
    rcases o 1 with _ | _ | k <;> simp [Syscall.run, logBytes]

/-- A log file is the longest run of entries at its start, which `readLogs` returns, and a rest. -/
theorem logBytes_eq_append (files : Files) :
    logCode.IsLongest (readLogs files).1 (logBytes files) ∧
      logBytes files = serializeLog (readLogs files).1 ++ unread files := by
  obtain ⟨es, hes⟩ := logCode.exists_isLongest (logBytes files)
  have hread : readLogs files = (es, (serializeLog es).length) := by
    rw [readLogs_eq, deserializeLogEntry_eq_some.mpr ⟨hes, rfl⟩, Option.getD_some]
  obtain ⟨rest, hrest, -⟩ := hes.exists_rest
  rw [logCode_encode] at hrest
  refine ⟨by rw [hread]; exact hes, ?_⟩
  rw [unread, hread, hrest, List.drop_left]

/-- **What is read after an append**: what was read before, and what the unread bytes and the new
ones hold together. -/
theorem mem_readLogs_writelog {o : ℕ → Outcome} {e x : LogEntry} {files : Files} :
    x ∈ (readLogs (runCalls o (writelog e) files).2).1 ↔
      x ∈ (readLogs files).1 ∨ Legible (unread files ++ landed o e) x := by
  obtain ⟨hread, hbytes⟩ := logBytes_eq_append files
  obtain ⟨hafter, -⟩ := logBytes_eq_append (runCalls o (writelog e) files).2
  obtain ⟨new, hnew⟩ := logCode.exists_isLongest (unread files ++ landed o e)
  rw [logBytes_writelog, hbytes, List.append_assoc] at hafter
  have hall := (PrefixCode.isLongest_encode_append hread.valid).mpr hnew
  rw [hafter.unique hall, List.mem_append]
  refine or_congr Iff.rfl ⟨fun hx => ⟨new, hnew.toIsRun, hx⟩, ?_⟩
  rintro ⟨es, hes, hx⟩
  exact (hes.isPrefix_of_longest hnew).subset hx

/-- **Where nothing was left unread** an append adds its entry if it succeeds, and nothing else. -/
theorem legible_landed_iff {o : ℕ → Outcome} {e x : LogEntry} (he : e.WellFormed) :
    Legible (landed o e) x ↔ x = e ∧ succeeds o (writelog e) = true := by
  rw [succeeds_writelog_iff]
  constructor
  · rintro ⟨es, ⟨hvalid, hpre⟩, hx⟩
    cases es with
    | nil => exact absurd hx (by simp)
    | cons y es =>
      have hy : serializeLogEntry y <+: landed o e := (List.prefix_append _ _).trans hpre
      -- one word cannot be the beginning of another one
      obtain rfl : y = e := logCode.word_unique (hvalid y List.mem_cons_self) he
        (hy.trans (landed_isPrefix o e)) List.prefix_rfl
      have hall : landed o y = serializeLogEntry y :=
        (landed_isPrefix o y).eq_of_length_le hy.length_le
      have hnone : es = [] := by
        have hrun : logCode.IsRun (y :: es) (logCode.encode [y]) := by
          refine ⟨hvalid, ?_⟩
          rw [hall] at hpre
          rw [PrefixCode.encode_singleton]
          exact hpre
        have hone : ∀ z ∈ [y], logCode.Valid z := fun z hz => List.mem_singleton.mp hz ▸ he
        have hlongest := PrefixCode.isLongest_encode hone
        have hle := (hrun.isPrefix_of_longest hlongest).length_le
        simpa using hle
      rw [hnone, List.mem_singleton] at hx
      exact ⟨hx, hall⟩
  · rintro ⟨rfl, hall⟩
    refine ⟨[x], ⟨fun z hz => List.mem_singleton.mp hz ▸ he, ?_⟩, List.mem_singleton.mpr rfl⟩
    rw [PrefixCode.encode_singleton, hall]
    exact List.prefix_rfl

/-! ## The leader counts itself -/

/-- `advanceCommit` comes to index `n` and counts the leader itself for it. -/
def Server.Counts (s : Server) (n : ℕ) : Prop :=
  s.role = .leader ∧ s.metadata.commitIndex < n ∧ n ≤ s.getLastLogIndex ∧
    s.termAt n = s.metadata.currentTerm ∧
    ∀ k, n < k → k ≤ s.getLastLogIndex → s.termAt k = s.metadata.currentTerm →
      s.replicas k < s.majority

/-- The loop has come to the index that it commits. -/
theorem Server.commitScan_counts {s : Server} (hrole : s.role = .leader) {n : ℕ}
    (h : s.commitScan s.getLastLogIndex = some n) : s.Counts n := by
  obtain ⟨hcommit, hlast, hterm, -⟩ := commitScan_eq_some h
  refine ⟨hrole, hcommit, hlast, hterm, ?_⟩
  have hskip : ∀ m, s.commitScan m = some n → ∀ k, n < k → k ≤ m →
      s.termAt k = s.metadata.currentTerm → s.replicas k < s.majority := by
    intro m
    induction m with
    | zero => intro hm k hk hle; omega
    | succ m ih =>
      intro hm k hk hle hkterm
      rw [commitScan] at hm
      split at hm
      · exact absurd hm (by simp)
      rcases Nat.lt_or_ge k (m + 1) with hlt | hge
      · refine ih ?_ k hk (by omega) hkterm
        split at hm
        · exact hm
        split at hm
        · have := Option.some.inj hm
          omega
        · exact hm
      · obtain rfl : k = m + 1 := by omega
        rw [if_neg (not_not.mpr hkterm)] at hm
        split at hm
        · have := Option.some.inj hm
          omega
        · omega
  exact hskip _ h

/-- For every index for which a leader counts itself, its entry can be read back from disk. -/
def CountDurable (s : Server) (files : Files) : Prop :=
  ∀ n, s.Counts n → ∃ e, s.logEntries[n - 1]? = some e ∧ e ∈ (readLogs files).1

/-- For every index for which the leader counts itself, its entry could be read back before the
section, or the section's append made it so: `bytes` are what this has put at the end of
`logs.bin`. -/
def CountWritten (s : Server) (files : Files) (bytes : Bytes) : Prop :=
  ∀ n, s.Counts n → ∃ e, s.logEntries[n - 1]? = some e ∧
    (e ∈ (readLogs files).1 ∨ Legible (unread files ++ bytes) e)

/-- What `CountWritten` comes to if nothing was left unread and the leader has appended `e` to
`log`: the new entry fits and its `writelog` succeeds, or it was there before; and the older ones
were there. -/
def AppendWritten (s : Server) (log : List LogEntry) (e : LogEntry) (files : Files)
    (o : ℕ → Outcome) : Prop :=
  (e ∈ (readLogs files).1 ∨ e.command.Fits ∧ succeeds o (writelog e) = true) ∧
    ∀ n x, s.Counts n → log[n - 1]? = some x → x ∈ (readLogs files).1

/-- **When a leader that has appended an entry may count itself.** -/
theorem countDurable_append_iff (s : Server) (files : Files) (o : ℕ → Outcome) (e : LogEntry) :
    CountDurable s (runCalls o (writelog e) files).2 ↔ CountWritten s files (landed o e) := by
  unfold CountDurable CountWritten
  simp only [mem_readLogs_writelog]

/-- A section that appends nothing makes no entry readable. -/
theorem countDurable_iff (s : Server) (files : Files) :
    CountDurable s files ↔ CountWritten s files [] := by
  obtain ⟨hread, hbytes⟩ := logBytes_eq_append files
  have hnone : ∀ e, ¬ Legible (unread files ++ []) e := by
    rintro e ⟨es, hes, he⟩
    rw [List.append_nil] at hes
    have hrun : logCode.IsRun ((readLogs files).1 ++ es) (logBytes files) := by
      refine ⟨fun x hx => ?_, ?_⟩
      · exact (List.mem_append.mp hx).elim (hread.valid x) (hes.valid x)
      · rw [hbytes, PrefixCode.encode_append]
        exact (List.prefix_append_right_inj _).mpr hes.isPrefix
    have hle := (hrun.isPrefix_of_longest hread).length_le
    rw [List.length_append] at hle
    have hpos := List.length_pos_of_mem he
    omega
  unfold CountDurable CountWritten
  simp only [hnone, or_false]

/-- A leader has appended `e` to `log`, in its term and with the next index. -/
structure Appended (s : Server) (log : List LogEntry) (e : LogEntry) : Prop where
  role : s.role = .leader
  stored : s.logEntries = log ++ [e]
  indexed : Indexed log
  index : e.index = log.length + 1
  term : e.term = s.metadata.currentTerm
  commit_le : s.metadata.commitIndex ≤ log.length

namespace Appended

variable {s : Server} {log : List LogEntry} {e : LogEntry} (h : Appended s log e)

include h

theorem getLastLogIndex : s.getLastLogIndex = log.length + 1 := by
  have hall : Indexed s.logEntries := h.stored ▸ h.indexed.append_singleton h.index
  rw [hall.getLastLogIndex, h.stored, List.length_append, List.length_singleton]

theorem getElem?_last : s.logEntries[log.length]? = some e := by
  rw [h.stored, List.getElem?_append_right le_rfl, Nat.sub_self, List.getElem?_cons_zero]

/-- **A leader counts itself for what it appends.** -/
theorem counts : s.Counts (log.length + 1) := by
  have hlast := h.getLastLogIndex
  refine ⟨h.role, Nat.lt_succ_of_le h.commit_le, hlast.ge, ?_, fun k hk hle => by omega⟩
  rw [Server.termAt, if_neg (Nat.succ_ne_zero _), Nat.add_sub_cancel, h.getElem?_last, ← h.term]
  rfl

/-- The condition, where nothing was left unread. -/
theorem countWritten_iff (hfits : e.WellFormed ↔ e.command.Fits) {files : Files}
    (hclean : unread files = []) (o : ℕ → Outcome) :
    CountWritten s files (landed o e) ↔ AppendWritten s log e files o := by
  rw [CountWritten, AppendWritten, hclean, List.nil_append]
  constructor
  · intro hall
    obtain ⟨x, hx, hread⟩ := hall _ h.counts
    rw [Nat.add_sub_cancel, h.getElem?_last, Option.some.injEq] at hx
    subst hx
    have hwf : e.WellFormed := by
      rcases hread with hread | ⟨es, hes, hmem⟩
      · exact wellFormed_of_mem_readLogs hread
      · exact hes.valid e hmem
    refine ⟨hread.imp id fun hleg => ⟨hfits.mp hwf, ((legible_landed_iff hwf).mp hleg).2⟩, ?_⟩
    intro n x hcounts hx
    obtain ⟨y, hy, hread'⟩ := hall n hcounts
    have hlt := (List.getElem?_eq_some_iff.mp hx).1
    rw [h.stored, List.getElem?_append_left hlt, hx, Option.some.injEq] at hy
    subst hy
    refine hread'.resolve_right fun hleg => ?_
    -- an older entry carries a smaller index than the new one
    obtain ⟨rfl, -⟩ := (legible_landed_iff hwf).mp hleg
    have hxindex := h.indexed _ _ hx
    have hindex := h.index
    omega
  · rintro ⟨hnew, hold⟩ n hcounts
    obtain ⟨-, hpos, hle, -⟩ := id hcounts
    rw [h.getLastLogIndex] at hle
    rcases Nat.lt_or_ge (n - 1) log.length with hlt | hge
    · have hx : log[n - 1]? = some log[n - 1] := List.getElem?_eq_getElem hlt
      refine ⟨_, ?_, Or.inl (hold n _ hcounts hx)⟩
      rw [h.stored, List.getElem?_append_left hlt, hx]
    · obtain rfl : n = log.length + 1 := by omega
      refine ⟨e, by rw [Nat.add_sub_cancel, h.getElem?_last], hnew.imp id fun hdone => ?_⟩
      exact (legible_landed_iff (hfits.mpr hdone.1)).mpr ⟨rfl, hdone.2⟩

end Appended

/-- A server in order: its entries carry their positions, and no number is too large. -/
structure InOrder (s : Server) : Prop where
  indexed : Indexed s.logEntries
  length_lt : s.logEntries.length + 1 < 2 ^ 64
  term_lt : s.metadata.currentTerm < 2 ^ 64
  commit_le : s.metadata.commitIndex ≤ s.logEntries.length

namespace InOrder

variable {s : Server} (h : InOrder s)

include h

theorem nextLogIndex : s.nextLogIndex = s.logEntries.length + 1 := by
  rw [Server.nextLogIndex, h.indexed.getLastLogIndex, Nat.mod_eq_of_lt h.length_lt]

/-- What a client asks for, in the section of `proposeAndWait`. -/
theorem appended_propose {request : Request} {w : Waiter} {s' : Server}
    (hw : s.propose request = some (w, s')) :
    Appended (s.appendEntry w.entry) s.logEntries w.entry ∧
      (w.entry.WellFormed ↔ w.entry.command.Fits) := by
  obtain ⟨hrole, rfl, -⟩ := Server.propose_eq hw
  refine ⟨⟨hrole, rfl, h.indexed, h.nextLogIndex, rfl, h.commit_le⟩, ?_⟩
  constructor
  · exact fun hwf => ⟨hwf.command.key_lt, hwf.command.value_lt⟩
  · exact fun hfits => ⟨Request.wellFormed_command hfits, h.term_lt,
      Nat.mod_lt _ (Nat.two_pow_pos 64)⟩

/-- The first entry of a leader, in `becomeLeader`. -/
theorem appended_noop :
    Appended (s.takeLead.appendEntry s.takeLead.noop).resetPeers s.logEntries s.takeLead.noop ∧
      (s.takeLead.noop.WellFormed ↔ s.takeLead.noop.command.Fits) := by
  refine ⟨⟨rfl, rfl, h.indexed, h.nextLogIndex, rfl, h.commit_le⟩, ?_⟩
  constructor
  · exact fun hwf => ⟨hwf.command.key_lt, hwf.command.value_lt⟩
  · exact fun _ => ⟨Command.wellFormed_noop, h.term_lt, Nat.mod_lt _ (Nat.two_pow_pos 64)⟩

end InOrder

/-- The disk after the effects of a section up to its append. -/
theorem performWith_append_writelog (o : ℕ → ℕ → Outcome) (es : List Effect) (e : LogEntry)
    (files : Files) : performWith o (es ++ [.writelog e]) files =
      (runCalls (o es.length) (writelog e) (performWith o es files)).2 :=
  performWith_append o es [.writelog e] files

/-- The disk on which `becomeLeader` appends is the one from before. -/
theorem performWith_becomeLeader (o : ℕ → ℕ → Outcome) (s : Server) (files : Files) :
    performWith o s.takeLead.effects files = performWith o s.effects files := by
  show performWith o (s.effects ++ [_]) files = _
  rw [performWith_append]
  rfl

/-- **What a leader commits is on disk**, if it counts itself rightly. -/
theorem CountDurable.committed {s : Server} {files : Files} (h : CountDurable s files)
    (hrole : s.role = .leader) {n : ℕ} (hn : s.commitScan s.getLastLogIndex = some n) :
    ∃ e, s.logEntries[n - 1]? = some e ∧ e ∈ (readLogs files).1 :=
  h n (Server.commitScan_counts hrole hn)

/-! ## All promises -/

/-- A node that was just started on an empty directory. -/
def freshNode : Node := .start 2 [1] Files.none 0

/-- A request for the first entry of a leader. -/
def firstEntry : AppendEntriesArgs := ⟨1, 1, 0, 0, [⟨1, 1, .noop⟩], 0⟩

theorem incoming_firstEntry : Incoming freshNode.server [⟨1, 1, .noop⟩] firstEntry where
  entries := rfl
  prev_le := Nat.zero_le _
  prev_term h := absurd rfl h
  indexed := Indexed.append_singleton Indexed.nil rfl
  log_indexed := Indexed.nil
  matching := Matching.nil _
  wellFormed e he := by
    rw [List.mem_singleton.mp he]
    exact admits_noop 1 1 (by decide) (by decide)
  log_wellFormed e he := absurd he (by simp [show freshNode.server.logEntries = [] from rfl])

theorem inOrder_freshNode : InOrder freshNode.server where
  indexed := Indexed.nil
  length_lt := by simp [show freshNode.server.logEntries = [] from rfl]
  term_lt := by decide +kernel
  commit_le := by decide +kernel

theorem unread_freshNode : unread freshNode.files = [] := rfl

end RaftConsensus
