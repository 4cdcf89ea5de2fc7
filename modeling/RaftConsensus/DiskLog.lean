import RaftConsensus.Reconcile
import RaftConsensus.Recovery

/-!
# The log on disk mirrors the log in memory

`logs` is the monitor of `logs.bin`: it keeps the list of entries whose bytes the file
holds.  Whatever its entries are, the file of a node between two sections holds the bytes
of `log_entries` in order (`Node.Mirrored`), and a crash inside a section leaves the bytes
of one of the logs that the section came through (`logBytes_crashFiles`).

Bytes are not entries, though.  `readLogs` gives the entries back if and only if each of
them is well formed (`readLogs_eq_iff`), and the length fields of a command whose key or
value has 65536 bytes or more are not those of its key and value.

* `disk_mirrors_memory`: over a run in which a leader takes no such command, `readLogs`
  returns the log in memory, and so does a restart.
* `readLogs_eq_logEntries_iff`: over a run without crashes, well-formedness is all it takes.
* `oversized_entry_is_lost`: one such command, and a restart loses a committed entry.
-/

namespace RaftConsensus

/-! ## The monitor -/

/-- The log on disk after an effect. -/
def Effect.log (p : List LogEntry) : Effect → List LogEntry
  | writelog e => p ++ [e]
  | rewriteLog es => es
  | _ => p

/-- The effects that a node may have when its log on disk is `p`, if it writes only entries that
satisfy `W`. -/
def Effect.Storing (W : LogEntry → Prop) (p : List LogEntry) : Effect → Prop
  | writelog e => W e
  | rewriteLog es => ∀ e ∈ es, W e
  | createLogs => p = []
  | truncateLogFile _ => False
  | _ => True

/-- The monitor of `logs.bin`. -/
def logs (W : LogEntry → Prop) : Monitor (List LogEntry) Effect where
  next := Effect.log
  ok := Effect.Storing W

/-- The bytes of the log file. -/
def logBytes (files : Files) : Bytes := (files .logs).getD []

theorem logBytes_congr {files files' : Files} (h : files .logs = files' .logs) :
    logBytes files = logBytes files' := by
  rw [logBytes, logBytes, h]

/-- The effects other than writes of the log do not touch its file. -/
theorem Effect.calls_not_logs {e : Effect} (hw : ∀ x, e ≠ .writelog x)
    (hr : ∀ es, e ≠ .rewriteLog es) (ht : ∀ n, e ≠ .truncateLogFile n) (hc : e ≠ .createLogs) :
    ∀ c ∈ e.calls, .logs ∉ c.touches := by
  rcases e with m | x | xs | n | _ | _ | _ | _ | _ | _ | _ | _
  · simp [calls, RaftConsensus.updateMetaData, Syscall.touches]
  · exact absurd rfl (hw x)
  · exact absurd rfl (hr xs)
  · exact absurd rfl (ht n)
  · simp [calls, RaftConsensus.createMetaData, Syscall.touches]
  · exact absurd rfl hc
  all_goals exact fun c hc => absurd hc (by simp [calls])

/-- The calls of `rewriteLog` before its last leave the log alone. -/
theorem logBytes_rewriteLog_take (es : List LogEntry) {k : ℕ} (hk : k < (rewriteLog es).length)
    (files : Files) :
    logBytes (runCalls noFaults ((rewriteLog es).take k) files).2 = logBytes files := by
  refine logBytes_congr (runCalls_of_not_touched (fun c hc => ?_) _ _)
  have hlen : k ≤ (Syscall.openTrunc .logsTmp ::
      es.map fun e => .write .logsTmp (serializeLogEntry e)).length := by
    simp only [rewriteLog, List.length_cons, List.length_append, List.length_map,
      List.length_nil] at hk ⊢
    omega
  rw [rewriteLog, ← List.cons_append, List.take_append_of_le_length hlen] at hc
  rcases List.mem_cons.mp (List.mem_of_mem_take hc) with rfl | hc
  · simp [Syscall.touches]
  · obtain ⟨e, -, rfl⟩ := List.mem_map.mp hc
    simp [Syscall.touches]

/-- A storage call that is complete. -/
theorem logBytes_calls {W : LogEntry → Prop} {files : Files} {p : List LogEntry}
    (h : logBytes files = serializeLog p) {e : Effect} (he : e.Storing W p) :
    logBytes (runCalls noFaults e.calls files).2 = serializeLog (e.log p) := by
  rcases e with m | x | xs | n | _ | _ | _ | _ | _ | _ | _ | _
  case writelog =>
    rw [Effect.calls, writelog_logs, logBytes, Function.update_self, Option.getD_some, Effect.log,
      serializeLog_append, serializeLog_singleton, ← h]
    rfl
  case rewriteLog =>
    rw [Effect.calls, rewriteLog_logs, logBytes, Function.update_of_ne (by simp),
      Function.update_self, Effect.log, Option.getD_some]
  case truncateLogFile => exact absurd he id
  case createLogs =>
    obtain rfl : p = [] := he
    simp [Effect.calls, RaftConsensus.createLogs, runCalls, Syscall.run, noFaults, logBytes,
      Effect.log]
  all_goals
    refine (logBytes_congr (runCalls_of_not_touched (fun c hc => ?_) _ _)).trans h
    exact Effect.calls_not_logs (by simp) (by simp) (by simp) (by simp) c hc

/-- One that was cut short has not changed the log. -/
theorem logBytes_calls_take {W : LogEntry → Prop} {files : Files} {p : List LogEntry} {e : Effect}
    (he : e.Storing W p) {k : ℕ} (hk : k < e.calls.length) :
    logBytes (runCalls noFaults (e.calls.take k) files).2 = logBytes files := by
  rcases e with m | x | xs | n | _ | _ | _ | _ | _ | _ | _ | _
  case writelog =>
    rcases k with _ | _ | k
    · rfl
    · simp [Effect.calls, RaftConsensus.writelog, runCalls, Syscall.run, noFaults, logBytes]
    · exact absurd hk (by simp [Effect.calls, RaftConsensus.writelog])
  case rewriteLog => exact logBytes_rewriteLog_take xs hk files
  case truncateLogFile => exact absurd he id
  case createLogs =>
    rw [show k = 0 by simpa [Effect.calls, RaftConsensus.createLogs] using hk]
    rfl
  all_goals
    refine logBytes_congr (runCalls_of_not_touched (fun c hc => ?_) _ _)
    exact Effect.calls_not_logs (by simp) (by simp) (by simp) (by simp) c (List.mem_of_mem_take hc)

/-- **What the monitor keeps is what the file holds.** -/
theorem logBytes_perform {W : LogEntry → Prop} {es : List Effect} {p q : List LogEntry}
    (h : (logs W).Reads p es q) {files : Files} (hf : logBytes files = serializeLog p) :
    logBytes (perform es files) = serializeLog q := by
  induction h generalizing files with
  | nil p => exact hf
  | cons hok _ ih =>
    rw [perform_cons]
    exact ih (logBytes_calls hf hok)

/-- Everything that the monitor keeps satisfies `W`. -/
theorem logs_entries {W : LogEntry → Prop} {es : List Effect} {p q : List LogEntry}
    (h : (logs W).Reads p es q) (hp : ∀ e ∈ p, W e) : ∀ e ∈ q, W e := by
  refine h.invariant (I := fun _ r => ∀ e ∈ r, W e) (fun _ r e hr hok => ?_) [] hp
  rcases e with m | x | xs | n | _ | _ | _ | _ | _ | _ | _ | _
  · exact hr
  · intro y hy
    rcases List.mem_append.mp hy with hy | hy
    · exact hr y hy
    · rw [List.mem_singleton.mp hy]
      exact hok
  · exact hok
  all_goals exact hr

/-- **The log at a crash point** is one that the monitor came through. -/
theorem logBytes_crashFiles {W : LogEntry → Prop} {es : List Effect} {p q : List LogEntry}
    (h : (logs W).Reads p es q) {files : Files} (hf : logBytes files = serializeLog p)
    (c : CrashPoint) :
    ∃ k r, (logs W).Reads p (es.take k) r ∧ logBytes (crashFiles es c files) = serializeLog r := by
  obtain ⟨r, hr⟩ := h.take c.done
  have hdisk := logBytes_perform hr hf
  rcases he : es[c.done]? with _ | e
  · refine ⟨c.done, r, hr, ?_⟩
    rw [crashFiles, he]
    simpa [runCalls] using hdisk
  · obtain ⟨r', hr', hok, hnext⟩ := h.getElem? he
    obtain rfl := hr'.unique hr
    rw [crashFiles, he, Option.map_some, Option.getD_some]
    rcases lt_or_ge c.calls e.calls.length with hk | hk
    · exact ⟨c.done, r', hr', (logBytes_calls_take hok hk).trans hdisk⟩
    · rw [List.take_of_length_le hk]
      exact ⟨c.done + 1, _, hnext, logBytes_calls hdisk hok⟩

/-- A log file that is missing reads like an empty one. -/
theorem readLogs_eq (files : Files) :
    readLogs files = (deserializeLogEntry (logBytes files)).getD ([], 0) := by
  rcases hf : files .logs with _ | data
  · rw [readLogs, logBytes, hf]
    rfl
  · rw [readLogs, logBytes, hf]
    rfl

theorem readLogs_of_logBytes {files : Files} {es : List LogEntry}
    (h : logBytes files = serializeLog es) (hes : ∀ e ∈ es, e.WellFormed) :
    readLogs files = (es, (logBytes files).length) := by
  rw [readLogs_eq, h, deserializeLogEntry_serializeLog hes, Option.getD_some]

/-- **Reading gives the entries back if and only if they are well formed.** -/
theorem readLogs_eq_iff {files : Files} {es : List LogEntry}
    (h : logBytes files = serializeLog es) :
    (readLogs files).1 = es ↔ ∀ e ∈ es, e.WellFormed := by
  constructor
  · intro heq e he
    rw [← heq] at he
    exact wellFormed_of_mem_readLogs he
  · intro hes
    rw [readLogs_of_logBytes h hes]

/-! ## Every section keeps the file in step -/

/-- The log on disk was `p` when the section started, and the effects so far make it the log in
memory, all of whose entries satisfy `W`. -/
structure Server.Logged (W : LogEntry → Prop) (p : List LogEntry) (s : Server) : Prop where
  term_lt : s.metadata.currentTerm < 2 ^ 64
  entries : ∀ e ∈ s.logEntries, W e
  reads : (logs W).Reads p s.effects s.logEntries

/-- `W` holds of the entries that a leader makes of a command. -/
def Admits (W : LogEntry → Prop) (command : Command) : Prop :=
  ∀ t i, t < 2 ^ 64 → i < 2 ^ 64 → W ⟨t, i, command⟩

/-- The command of `becomeLeader`. -/
abbrev Command.noop : Command := { Command.default with operation := 3 }

theorem Command.wellFormed_noop : Command.noop.WellFormed := ⟨rfl, rfl, by decide, by decide⟩

theorem admits_noop : Admits LogEntry.WellFormed .noop :=
  fun _ _ ht hi => ⟨Command.wellFormed_noop, ht, hi⟩

namespace Server

variable {W : LogEntry → Prop} {p : List LogEntry} {s s' : Server}

/-- A change that leaves log and effects alone. -/
theorem Logged.congr (h : s.Logged W p) (s' : Server) (ht : s'.metadata.currentTerm < 2 ^ 64)
    (hl : s'.logEntries = s.logEntries) (he : s'.effects = s.effects) : s'.Logged W p where
  term_lt := ht
  entries := hl ▸ h.entries
  reads := by rw [he, hl]; exact h.reads

/-- An effect that does not touch the log. -/
theorem Logged.emit (h : s.Logged W p) (e : Effect) (hk : ∀ q, e.Storing W q)
    (he : ∀ q, e.log q = q) :
    (s.emit e).Logged W p where
  term_lt := h.term_lt
  entries := h.entries
  reads := by
    have := h.reads.snoc (M := logs W) (hk _)
    rwa [show (logs W).next s.logEntries e = s.logEntries from he _] at this

theorem Logged.persist (h : s.Logged W p) (s' : Server) (ht : s'.metadata.currentTerm < 2 ^ 64)
    (hl : s'.logEntries = s.logEntries) (he : s'.effects = s.effects) :
    s'.persistMetaData.Logged W p :=
  (h.congr s' ht hl he).emit (.updateMetaData s'.metadata) (fun _ => trivial) fun _ => rfl

theorem Logged.commits (h : s.Logged W p) {es : List Effect} (hc : Commits s s' es) :
    s'.Logged W p where
  term_lt := hc.currentTerm ▸ h.term_lt
  entries := hc.logEntries ▸ h.entries
  reads := by
    rw [hc.effects, hc.logEntries]
    refine h.reads.append (Monitor.Reads.idle fun e he => ?_)
    have := hc.isCommit e he
    rcases e with _ | _ | _ | _ | _ | _ | _ | _ | _ | _ | _ | _
    all_goals first | exact absurd this id | exact ⟨trivial, rfl⟩

theorem Logged.advanceCommit (h : s.Logged W p) : s.advanceCommit.Logged W p := by
  obtain ⟨es, hc⟩ := s.advanceCommit_commits
  exact h.commits hc

theorem Logged.followCommit (h : s.Logged W p) (args : AppendEntriesArgs) :
    (s.followCommit args).Logged W p := by
  obtain ⟨es, hc⟩ := s.followCommit_commits args
  exact h.commits hc

theorem Logged.stepDown (h : s.Logged W p) {t : ℕ} (ht : t < 2 ^ 64) : (s.stepDown t).Logged W p :=
  h.persist { s with
    role := .follower
    metadata := { s.metadata with currentTerm := t, votedFor := 0 }
    currentLeaderId := 0 } ht rfl rfl

theorem Logged.appendEntry (h : s.Logged W p) {e : LogEntry} (he : W e) :
    (s.appendEntry e).Logged W p where
  term_lt := h.term_lt
  entries x hx := by
    rcases List.mem_append.mp hx with hx | hx
    · exact h.entries x hx
    · rw [List.mem_singleton.mp hx]
      exact he
  reads := h.reads.snoc (M := logs W) (e := .writelog e) he

theorem Logged.nextEntry (h : s.Logged W p) {command : Command} (hc : Admits W command) :
    W ⟨s.metadata.currentTerm, s.nextLogIndex, command⟩ :=
  hc _ _ h.term_lt (Nat.mod_lt _ (Nat.two_pow_pos 64))

theorem Logged.becomeLeader (h : s.Logged W p) (hW : Admits W .noop) :
    s.becomeLeader.Logged W p := by
  have hmark := h.emit (.becomeLeader s.metadata.currentTerm s.logEntries) (fun _ => trivial)
    fun _ => rfl
  have hlead : s.takeLead.Logged W p := hmark.congr _ h.term_lt rfl rfl
  have happ : (s.takeLead.appendEntry s.takeLead.noop).Logged W p :=
    hlead.appendEntry (hlead.nextEntry hW)
  unfold Server.becomeLeader
  refine Logged.advanceCommit ?_
  exact happ.congr _ h.term_lt rfl rfl

theorem Logged.becomeCandidate (h : s.Logged W p) : s.becomeCandidate.Logged W p := by
  have hpersist := h.persist { s with
    role := .candidate
    metadata := { s.metadata with
      currentTerm := (s.metadata.currentTerm + 1) % 2 ^ 64, votedFor := s.nodeId }
    currentLeaderId := 0
    votesReceived := 1 } (Nat.mod_lt _ (Nat.two_pow_pos 64)) rfl rfl
  exact hpersist.emit (.candidate _) (fun _ => trivial) fun _ => rfl

theorem Logged.grantVote (h : s.Logged W p) (c : ℕ) : (s.grantVote c).Logged W p := by
  have hpersist := h.persist { s with metadata := { s.metadata with votedFor := c } } h.term_lt
    rfl rfl
  exact hpersist.emit (.votedFor c _) (fun _ => trivial) fun _ => rfl

theorem Logged.recognizeLeader (h : s.Logged W p) {args : AppendEntriesArgs}
    (ht : args.term < 2 ^ 64) : (s.recognizeLeader args).Logged W p := by
  have hadopt : (if s.metadata.currentTerm < args.term then persistMetaData
      { s with metadata := { s.metadata with currentTerm := args.term, votedFor := 0 } }
      else s).Logged W p := by
    split
    · exact h.persist _ ht rfl rfl
    · exact h
  exact hadopt.congr _ hadopt.term_lt rfl rfl

theorem Logged.storeEntries (h : s.Logged W p) {entries : List LogEntry}
    (hW : ∀ e ∈ entries, W e) (hs : s.storeEntries entries = some s') :
    s'.Logged W p := by
  cases storeEntries_way hs with
  | same log hr =>
    rw [(reconcile_unchanged hr).1]
    exact h
  | rewritten log hr =>
    have hlog : ∀ e ∈ log, W e := by
      intro e he
      rcases mem_reconcile hr he with he | he
      · exact h.entries e he
      · exact hW e he
    exact ⟨h.term_lt, hlog, h.reads.snoc (M := logs W) (e := .rewriteLog log) hlog⟩

/-! ### The handlers -/

theorem Logged.handleRequestVote (h : s.Logged W p) {args : RequestVoteArgs}
    (ht : args.term < 2 ^ 64) : (s.handleRequestVote args).2.Logged W p := by
  have hmeet : (s.meetTerm args.term).Logged W p := by
    unfold meetTerm
    split
    · exact h.stepDown ht
    · exact h
  generalize hr : s.handleRequestVote args = r
  cases handleRequestVote_way hr with
  | old => exact h
  | granted => exact hmeet.grantVote args.candidateId
  | denied => exact hmeet

theorem Logged.handleAppendEntries (h : s.Logged W p) {args : AppendEntriesArgs}
    (ht : args.term < 2 ^ 64) (hW : ∀ e ∈ args.entries, W e)
    {r : AppendEntriesReply × Server} (hr : s.handleAppendEntries args = some r) :
    r.2.Logged W p := by
  cases handleAppendEntries_way hr with
  | old => exact h
  | mismatch => exact h.recognizeLeader ht
  | stored hterm hprev s' hs' =>
    exact ((h.recognizeLeader ht).storeEntries hW hs').followCommit args

theorem Logged.handleRequestVoteReply (h : s.Logged W p) (hW : Admits W .noop) {t : ℕ}
    {reply : RequestVoteReply} (ht : reply.term < 2 ^ 64) :
    (s.handleRequestVoteReply t reply).Logged W p := by
  have hcount : s.countVote.Logged W p := h.congr _ h.term_lt rfl rfl
  generalize hs' : s.handleRequestVoteReply t reply = s'
  cases handleRequestVoteReply_way hs' with
  | stepsDown => exact h.stepDown ht
  | ignored => exact h
  | won => exact hcount.becomeLeader hW
  | counted => exact hcount

theorem Logged.handleAppendEntriesReply (h : s.Logged W p) {peer : ℕ} {args : AppendEntriesArgs}
    {reply : AppendEntriesReply} (ht : reply.term < 2 ^ 64) :
    (s.handleAppendEntriesReply peer args reply).Logged W p := by
  have hup : (s.reached peer).Logged W p := h.congr _ h.term_lt rfl rfl
  generalize hs' : s.handleAppendEntriesReply peer args reply = s'
  cases handleAppendEntriesReply_way hs' with
  | stepsDown => exact hup.stepDown ht
  | ignored => exact hup
  | credited =>
    rw [creditPeer_eq]
    refine Logged.advanceCommit ?_
    exact hup.congr _ h.term_lt rfl rfl
  | backed => exact hup.congr _ h.term_lt rfl rfl

theorem Logged.electionTimeout (h : s.Logged W p) (hW : Admits W .noop) {r : Bool × Server}
    (hr : s.electionTimeout = some r) : r.2.Logged W p := by
  cases electionTimeout_way hr with
  | alone => exact h.becomeCandidate.becomeLeader hW
  | campaigns => exact h.becomeCandidate

theorem Logged.propose (h : s.Logged W p) {request : Request}
    (hW : s.role = .leader → Admits W request.command) {r : Waiter × Server}
    (hr : s.propose request = some r) : r.2.Logged W p := by
  obtain ⟨hrole, hw, hs'⟩ := propose_eq hr
  rw [hs', hw]
  exact (h.appendEntry (h.nextEntry (hW hrole))).advanceCommit

end Server

/-- What is known of an input: terms have 64 bits, and `W` holds of the entries that come in. -/
def Input.Storable (W : LogEntry → Prop) (s : Server) : Input → Prop
  | requestVote args => args.term < 2 ^ 64
  | appendEntries args => args.term < 2 ^ 64 ∧ ∀ e ∈ args.entries, W e
  | requestVoteReply _ reply => reply.term < 2 ^ 64
  | appendEntriesReply _ _ reply => reply.term < 2 ^ 64
  | propose request => s.role = .leader → Admits W request.command
  | _ => True

/-- **Every section keeps the file in step with memory.** -/
theorem Node.handle_logged {W : LogEntry → Prop} {p : List LogEntry} {n : Node} {x : Input}
    {r : Node × List Output} (hr : n.handle x = some r) (h : n.server.Logged W p)
    (hW : Admits W .noop) (hx : x.Storable W n.server) : r.1.server.Logged W p := by
  obtain ⟨m, os⟩ := r
  cases handle_section hr with
  | requestVote args => exact h.handleRequestVote hx
  | appendEntries args r hr' => exact h.handleAppendEntries hx.1 hx.2 hr'
  | requestVoteReply t reply => exact h.handleRequestVoteReply hW hx
  | appendEntriesReply peer args reply => exact h.handleAppendEntriesReply hx
  | contactFailed peer => exact h.congr _ h.term_lt rfl rfl
  | electionTimeout r hr' => exact h.electionTimeout hW hr'
  | proposed request w s hp => exact h.propose hx hp
  | atOnce request w s hp => exact h.propose hx hp
  | sendRequestVotes | replicate | refused | wake => exact h

/-! ## Nodes at rest -/

namespace Node

variable {n n' : Node}

/-- Between two sections: the file holds the bytes of the log in memory, whose entries satisfy
`W`. -/
structure Mirrored (W : LogEntry → Prop) (n : Node) : Prop where
  logged : n.server.Logged W n.server.logEntries
  clean : n.server.effects = []
  disk : logBytes n.files = serializeLog n.server.logEntries

/-- **A section keeps the mirror.** -/
theorem Mirrored.flush {W : LogEntry → Prop} (h : n.Mirrored W) (hW : Admits W .noop) {x : Input}
    (hx : x.Storable W n.server) {m : Node} {os : List Output} (hm : n.handle x = some (m, os)) :
    m.flush.Mirrored W := by
  have hl := handle_logged hm h.logged hW hx
  refine ⟨⟨hl.term_lt, hl.entries, .nil _⟩, rfl, ?_⟩
  exact logBytes_perform hl.reads ((handle_frame hm).1 ▸ h.disk)

/-! ### Starts on a file of well-formed entries -/

variable {i : ℕ} {ps : List ℕ} {files : Files} {es : List LogEntry}

theorem initStorage_logs (W : LogEntry → Prop) (h : logBytes files = serializeLog es) :
    ∀ e ∈ initStorage files, (logs W).ok es e ∧ (logs W).next es e = es := by
  intro e he
  rcases List.mem_append.mp he with he | he
  · split at he
    · rw [List.mem_singleton.mp he]
      exact ⟨trivial, rfl⟩
    · exact absurd he (by simp)
  · split at he
    · next hnone =>
      rw [List.mem_singleton.mp he]
      refine ⟨?_, rfl⟩
      rw [logBytes, hnone, Option.getD_none] at h
      have hlen := length_le_serializeLog es
      rw [← h] at hlen
      exact List.eq_nil_of_length_eq_zero (Nat.le_zero.mp hlen)
    · exact absurd he (by simp)

theorem logBytes_initStorage (h : logBytes files = serializeLog es) :
    logBytes (perform (initStorage files) files) = serializeLog es :=
  logBytes_perform (Monitor.Reads.idle (initStorage_logs LogEntry.WellFormed h)) h

/-- **A start leaves a log of well-formed entries alone.** -/
theorem bootEffects_logs (i : ℕ) (ps : List ℕ) (W : LogEntry → Prop)
    (h : logBytes files = serializeLog es)
    (hes : ∀ e ∈ es, e.WellFormed) :
    ∀ e ∈ bootEffects i ps files, (logs W).ok es e ∧ (logs W).next es e = es := by
  intro e he
  rcases List.mem_append.mp he with he | he
  · exact initStorage_logs W h e he
  · -- the whole file was read, so nothing is cut off
    rw [recover_eq, readLogs_of_logBytes (logBytes_initStorage h) hes, logBytes,
      if_neg (lt_irrefl _)] at he
    rcases List.mem_append.mp he with he | he
    · rw [List.nil_append] at he
      obtain ⟨index, command, rfl⟩ := Server.mem_appliedMarks he
      exact ⟨trivial, rfl⟩
    · rw [List.mem_singleton.mp he]
      exact ⟨trivial, rfl⟩

/-- **A start on a file of well-formed entries** has them as its log. -/
theorem start_mirrored (i : ℕ) (ps : List ℕ) (boot : ℕ) (h : logBytes files = serializeLog es)
    (hes : ∀ e ∈ es, e.WellFormed) :
    (start i ps files boot).Mirrored LogEntry.WellFormed ∧
      (start i ps files boot).server.logEntries = es := by
  have hlog : (start i ps files boot).server.logEntries = es := by
    rw [start, recover_eq, readLogs_of_logBytes (logBytes_initStorage h) hes]
  refine ⟨⟨⟨?_, hlog ▸ hes, .nil _⟩, rfl, ?_⟩, hlog⟩
  · rw [start, recover_eq]
    exact (getMetaData_lt _).1
  · rw [hlog]
    exact logBytes_perform (Monitor.Reads.idle (bootEffects_logs i ps LogEntry.WellFormed h hes)) h

/-- Starts that fail leave it alone as well. -/
theorem failedStarts_logBytes (cs : List CrashPoint) (h : logBytes files = serializeLog es)
    (hes : ∀ e ∈ es, e.WellFormed) :
    logBytes (failedStarts i ps cs files).2 = serializeLog es := by
  induction cs generalizing files with
  | nil => exact h
  | cons c cs ih =>
    have hidle := bootEffects_logs i ps LogEntry.WellFormed h hes
    obtain ⟨k, r, hr, hdisk⟩ := logBytes_crashFiles (Monitor.Reads.idle hidle) h c
    refine ih (hdisk.trans (congrArg serializeLog ?_))
    exact hr.unique (Monitor.Reads.idle fun e he => hidle e (List.mem_of_mem_take he))

/-- **A restart restores the log of the file**, however often it is tried. -/
theorem restart_mirrored (cs : List CrashPoint) (h : logBytes files = serializeLog es)
    (hes : ∀ e ∈ es, e.WellFormed) :
    (n.restart cs files).1.Mirrored LogEntry.WellFormed ∧
      (n.restart cs files).1.server.logEntries = es :=
  start_mirrored _ _ _ (failedStarts_logBytes cs h hes) hes

/-- A crash inside a section: the node comes back with a log that mirrors the file. -/
theorem Mirrored.crashIn (h : n.Mirrored LogEntry.WellFormed) {x : Input}
    (hx : x.Storable LogEntry.WellFormed n.server) {m : Node} {os : List Output}
    (hm : n.handle x = some (m, os)) (c : CrashPoint) (cs : List CrashPoint) :
    (n.restart cs (crashFiles m.server.effects c n.files)).1.Mirrored LogEntry.WellFormed := by
  have hl := handle_logged hm h.logged admits_noop hx
  obtain ⟨k, r, hr, hdisk⟩ := logBytes_crashFiles hl.reads h.disk c
  exact (restart_mirrored cs hdisk (logs_entries hr h.logged.entries)).1

end Node

/-! ## Whole runs -/

/-- What is known of what comes from outside: terms have 64 bits, and the arguments of
AppendEntries come out of a body. -/
def Input.Received : Input → Prop
  | requestVote args => args.term < 2 ^ 64
  | appendEntries args => ∃ body, deserializeAppendEntriesArgs body = some args
  | requestVoteReply _ reply => reply.term < 2 ^ 64
  | appendEntriesReply _ _ reply => reply.term < 2 ^ 64
  | _ => True

/-- A request that a leader appends fits the length fields. -/
def Input.Fits (s : Server) : Input → Prop
  | propose request => s.role = .leader → request.command.Fits
  | _ => True

/-- What comes from outside can be stored if well-formed entries can, and what the clients ask for. -/
theorem Input.Received.storable {W : LogEntry → Prop} {x : Input} {s : Server} (h : x.Received)
    (hW : ∀ e : LogEntry, e.WellFormed → W e)
    (hp : ∀ request, x = .propose request → s.role = .leader → Admits W request.command) :
    x.Storable W s := by
  rcases x with args | args | _ | _ | _ | _ | _ | _ | request | _
  case appendEntries =>
    obtain ⟨body, hbody⟩ := h
    obtain ⟨hterm, hentries⟩ := wellFormed_of_deserializeAppendEntriesArgs hbody
    exact ⟨hterm, fun e he => hW e (hentries e he)⟩
  case propose => exact hp request rfl
  case requestVote => exact h
  case requestVoteReply => exact h
  case appendEntriesReply => exact h
  all_goals trivial

/-- A request that fits makes entries that are well formed. -/
theorem Input.Fits.storable {x : Input} {s : Server} (h : x.Fits s) (hx : x.Received) :
    x.Storable LogEntry.WellFormed s := by
  refine hx.storable (fun _ he => he) fun request hrequest hlead t i ht hi => ?_
  subst hrequest
  exact ⟨Request.wellFormed_command (h hlead), ht, hi⟩

namespace Node

/-- Steps on inputs from outside; a crash may come anywhere. -/
def Receiving (_ : Node) : Action → Prop
  | .run x | .crashIn x _ _ => x.Received
  | .crash _ => True

/-- Steps in which a leader takes no key or value of 65536 bytes or more. -/
def Fitting (n : Node) : Action → Prop
  | .run x | .crashIn x _ _ => x.Received ∧ x.Fits n.server
  | .crash _ => True

/-- Sections that run to their end. -/
def Uncrashed (_ : Node) : Action → Prop
  | .run x => x.Received
  | _ => False

/-- **As long as a node does not crash**, whatever its clients ask for, the file gives the log back
if and only if every entry of the log is well formed. -/
theorem readLogs_eq_logEntries_iff {i : ℕ} {ps : List ℕ} {tr : List Event} {n : Node}
    (h : Run (machine i ps) Uncrashed tr n) :
    (readLogs n.files).1 = n.server.logEntries ↔ ∀ e ∈ n.server.logEntries, e.WellFormed := by
  have hinv : n.Mirrored fun _ => True := by
    refine h.invariant (I := fun _ n => n.Mirrored fun _ => True) ?_ ?_
    · have hempty : logBytes Files.none = serializeLog [] := rfl
      have hstart := (start_mirrored i ps 0 hempty (by simp)).1
      exact ⟨⟨hstart.logged.term_lt, fun _ _ => trivial, .nil _⟩, rfl, hstart.disk⟩
    · intro tr n a n' evs _ hI ha hs
      rcases a with x | cs | ⟨x, c, cs⟩
      · obtain ⟨⟨m, os⟩, hm, heq⟩ := Option.map_eq_some_iff.mp hs
        rw [← (Prod.mk.inj heq).1]
        exact hI.flush (fun _ _ _ _ => trivial)
          (ha.storable (fun _ _ => trivial) fun _ _ _ _ _ _ _ => trivial) hm
      · exact absurd ha id
      · exact absurd ha id
  exact readLogs_eq_iff hinv.disk

/-- Reading the file gives the log in memory, to the last byte, and so does a restart. -/
def MirrorsDisk (n : Node) : Prop :=
  readLogs n.files = (n.server.logEntries, (logBytes n.files).length) ∧
    ∀ retries, (n.restart retries n.files).1.server.logEntries = n.server.logEntries

/-- **The log on disk mirrors the log in memory** over every run of a node, wherever it crashes, in
which a leader takes no oversized key or value. -/
theorem disk_mirrors_memory {i : ℕ} {ps : List ℕ} {tr : List Event} {n : Node}
    (h : Run (machine i ps) Fitting tr n) : n.MirrorsDisk := by
  have hinv : n.Mirrored LogEntry.WellFormed := by
    refine h.invariant (I := fun _ n => n.Mirrored LogEntry.WellFormed) ?_ ?_
    · have hempty : logBytes Files.none = serializeLog [] := rfl
      exact (start_mirrored i ps 0 hempty (by simp)).1
    · intro tr n a n' evs _ hI ha hs
      rcases a with x | cs | ⟨x, c, cs⟩
      · obtain ⟨⟨m, os⟩, hm, heq⟩ := Option.map_eq_some_iff.mp hs
        rw [← (Prod.mk.inj heq).1]
        exact hI.flush admits_noop (ha.2.storable ha.1) hm
      · rw [← (Prod.mk.inj (Option.some.inj hs)).1]
        exact (restart_mirrored cs hI.disk hI.logged.entries).1
      · obtain ⟨⟨m, os⟩, hm, heq⟩ := Option.map_eq_some_iff.mp hs
        rw [← (Prod.mk.inj heq).1]
        exact hI.crashIn (ha.2.storable ha.1) hm c cs
  refine ⟨readLogs_of_logBytes hinv.disk hinv.logged.entries, fun retries => ?_⟩
  exact (restart_mirrored retries hinv.disk hinv.logged.entries).2

/-- A leader stores a value, crashes, and comes back. -/
theorem disk_mirrors_memory_put : ∃ tr n, Run (machine 1 []) Fitting tr n ∧
    n.MirrorsDisk ∧ n.server.logEntries.length = 2 := by
  let p : Node → Action → Bool
    | _, .run .electionTimeout => true
    | _, .run (.propose request) => decide request.command.Fits
    | _, .crash _ => true
    | _, _ => false
  have hp : ∀ n a, p n a = true → Fitting n a := by
    intro n a h
    rcases a with ⟨_ | _ | _ | _ | _ | _ | _ | _ | request | _⟩ | _ | _
    case run.electionTimeout => exact ⟨trivial, trivial⟩
    case run.propose => exact ⟨trivial, fun _ => of_decide_eq_true h⟩
    case crash => trivial
    all_goals exact absurd h (by simp [p])
  obtain ⟨tr, n, hrun, hlen⟩ := Run.exists_of_exec hp (M := machine 1 [])
    (fun n _ => decide (n.server.logEntries.length = 2))
    [.run .electionTimeout, .run (.propose (.put [107] [118])), .crash []] (by decide +kernel)
  exact ⟨tr, n, hrun, disk_mirrors_memory hrun, of_decide_eq_true hlen⟩

/-- A lone node commits what a client asks of it. -/
theorem lone_leader_commits (request : Request) : ∃ tr n, Run (machine 1 []) Receiving tr n ∧
    n.server.logEntries = [⟨1, 1, .noop⟩, ⟨1, 2, request.command⟩] ∧
      n.server.metadata.commitIndex = 2 := by
  obtain ⟨tr, n, hrun, h⟩ := Run.exists_of_exec (M := machine 1 []) (P := Receiving)
    (p := fun _ a => decide (a = .run .electionTimeout))
    (fun _ a h => by rw [of_decide_eq_true h]; trivial)
    (fun n _ => decide (n.server.role = .leader ∧ n.server.peers = [] ∧
      n.server.logEntries = [⟨1, 1, .noop⟩] ∧ n.server.metadata.currentTerm = 1 ∧
      n.server.metadata.commitIndex = 1))
    [.run .electionTimeout] (by decide +kernel)
  obtain ⟨hrole, hpeers, hlog, hterm, hcommit⟩ := of_decide_eq_true h
  have hnext : n.server.nextLogIndex = 2 := by
    simp [Server.nextLogIndex, Server.getLastLogIndex, hlog]
  set w : Waiter := ⟨request, 2, 1⟩ with hw
  have hpropose : n.server.propose request =
      some (w, (n.server.appendEntry w.entry).commitTo 2) := by
    have hscan : (n.server.appendEntry w.entry).commitScan 2 = some 2 := by
      rw [Server.commitScan, if_neg, if_neg, if_pos]
      · simp [Server.majority, Server.replicas, Server.appendEntry, Server.emit, hpeers]
      · simp [Server.termAt, Server.appendEntry, Server.emit, hlog, hterm, hw, Waiter.entry]
      · simp [Server.appendEntry, Server.emit, hcommit]
    have hlast : (n.server.appendEntry w.entry).getLastLogIndex = 2 := by
      simp [Server.getLastLogIndex, Server.appendEntry, Server.emit, hw, Waiter.entry]
    rw [Server.propose, if_neg (by simp [hrole]), hnext, hterm]
    dsimp only
    rw [Server.advanceCommit, if_neg (by simp [Server.appendEntry, Server.emit, hrole]), hlast,
      hscan]
    rfl
  obtain ⟨m, os, hm, hserver⟩ : ∃ m os, n.handle (.propose request) = some (m, os) ∧
      m.server = (n.server.appendEntry w.entry).commitTo 2 := by
    refine ⟨({ n with server := (n.server.appendEntry w.entry).commitTo 2 }.settle w).1,
      ({ n with server := (n.server.appendEntry w.entry).commitTo 2 }.settle w).2, ?_, ?_⟩
    · rw [handle, hpropose]
    · rw [settle]
      split <;> rfl
  have hreceived : n.Receiving (.run (.propose request)) := trivial
  refine ⟨_, m.flush, hrun.next hreceived (step_run hm), ?_, ?_⟩
  · calc m.server.logEntries = ((n.server.appendEntry w.entry).commitTo 2).logEntries := by
          rw [hserver]
      _ = n.server.logEntries ++ [w.entry] := Server.applyCommitted_logEntries _
      _ = [⟨1, 1, .noop⟩, ⟨1, 2, request.command⟩] := by rw [hlog]; rfl
  · calc m.server.metadata.commitIndex =
          ((n.server.appendEntry w.entry).commitTo 2).metadata.commitIndex := by rw [hserver]
      _ = 2 := Server.applyCommitted_commitIndex _

/-- **An oversized entry is lost.**  A lone leader takes the command `DEL` with a key of 65536
bytes and commits it; reading the file does not give it back, and a restart does not know it. -/
theorem oversized_entry_is_lost : ∃ tr n, Run (machine 1 []) Receiving tr n ∧ ¬ n.MirrorsDisk ∧
    ∃ e ∈ n.server.logEntries.take n.server.metadata.commitIndex,
      e ∉ (n.restart [] n.files).1.server.logEntries := by
  obtain ⟨key, hkey⟩ : ∃ key : Bytes, key.length = 65536 :=
    ⟨List.replicate 65536 97, List.length_replicate⟩
  obtain ⟨tr, n, hrun, hlog, hcommit⟩ := lone_leader_commits (.delete key)
  set e : LogEntry := ⟨1, 2, (Request.delete key).command⟩
  have hmem : e ∈ n.server.logEntries := by simp [hlog]
  have hbad : ¬ e.WellFormed := by
    intro h
    have hlt : key.length < 65536 := h.command.key_lt
    omega
  refine ⟨tr, n, hrun, fun h => ?_, e, ?_, fun hback => ?_⟩
  · have hread : e ∈ (readLogs n.files).1 := by
      rw [h.1]
      exact hmem
    exact hbad (wellFormed_of_mem_readLogs hread)
  · rw [hcommit, hlog]
    exact List.mem_cons_of_mem _ List.mem_cons_self
  · rw [restart, failedStarts, start, recover_eq] at hback
    exact hbad (wellFormed_of_mem_readLogs hback)

end Node

end RaftConsensus
