import RaftConsensus.AnyDisk
import RaftConsensus.Durability

/-!
# Recovery when the log cannot be read

`readLogs` says `{}` and zero valid bytes for an empty file, for a file of garbage, and also
when `open`, `fstat` or `read` fails or `read` returns fewer bytes than the file has.
`recover` asks for the size of the file on its own and cuts the file to the valid bytes, so
what could not be read is taken for garbage and cut away, to the last entry
(`keepsLog_iff`).

On Linux no special accident is needed: one `read` returns at most `maxRead` bytes, and a log
that has grown beyond this is emptied at the next start (`large_log_emptied`).
-/

namespace RaftConsensus

/-! ## `readLogs` and `recover` with failing calls -/

/-- What the calls of `readLogs` come to. -/
structure ReadOutcome where
  opened : Bool
  fstatted : Bool
  /-- how many bytes `read` returns if there are so many, or that it fails -/
  bytesRead : Option ℕ
  deriving DecidableEq, Repr

/-- `readLogs`. -/
def readLogsWith (o : ReadOutcome) (files : Files) : List LogEntry × ℕ :=
  match files .logs with
  | none => ([], 0)
  | some data =>
    if !o.opened then ([], 0)
    else if !o.fstatted then ([], 0)
    else if data.length = 0 then ([], 0)
    else if (o.bytesRead.map fun n => min n data.length) ≠ some data.length then ([], 0)
    else (deserializeLogEntry data).getD ([], 0)

/-- What `initStorage`, the calls of `readLogs`, and the `stat` of `recover` come to. -/
structure RecoverOutcome where
  initialized : Bool
  reading : ReadOutcome
  statted : Bool
  deriving DecidableEq, Repr

/-- `recover`, with its result; on the files as `initStorage` leaves them. -/
def recoverWith (o : RecoverOutcome) (nodeId : ℕ) (peers : List ℕ) (files : Files) :
    Bool × Server :=
  let s := Server.new nodeId peers
  if !o.initialized then (false, s)
  else
    let metadata := getMetaData files
    let (logEntries, validBytes) := readLogsWith o.reading files
    let s := if o.statted ∧ validBytes < ((files .logs).getD []).length then
        s.emit (.truncateLogFile validBytes) else s
    let commitIndex := min metadata.commitIndex logEntries.length
    (true, { s with
      logEntries := logEntries
      metadata := { metadata with
        commitIndex := commitIndex, lastApplied := 0 } }.replayCommitted.persistMetaData)

/-- All of the file is read. -/
def ReadOutcome.Complete (o : ReadOutcome) (data : Bytes) : Prop :=
  o.opened = true ∧ o.fstatted = true ∧ ∃ n, o.bytesRead = some n ∧ data.length ≤ n

theorem readLogsWith_of_complete {o : ReadOutcome} {files : Files}
    (h : o.Complete (logBytes files)) : readLogsWith o files = readLogs files := by
  obtain ⟨hopen, hstat, n, hread, hle⟩ := h
  unfold readLogsWith readLogs
  rcases hf : files .logs with _ | data
  · rfl
  · rw [logBytes, hf, Option.getD_some] at hle
    rcases data with _ | ⟨b, data⟩
    · simp [hopen, hstat, deserializeLogEntry, deserializeLoop]
    · have hmin : min n (b :: data).length = (b :: data).length := min_eq_right hle
      simp only [hopen, hstat, hread, Option.map_some, hmin]
      simp

/-- **What cannot be read counts as nothing.** -/
theorem readLogsWith_of_not_complete {o : ReadOutcome} {files : Files}
    (h : ¬ o.Complete (logBytes files)) : readLogsWith o files = ([], 0) := by
  unfold readLogsWith
  rcases hf : files .logs with _ | data
  · rfl
  · rw [logBytes, hf, Option.getD_some] at h
    dsimp only
    split
    · rfl
    next hopen =>
    split
    · rfl
    next hstat =>
    split
    · rfl
    split
    · rfl
    next hread =>
    refine absurd ⟨by simpa using hopen, by simpa using hstat, ?_⟩ h
    obtain ⟨n, hn, hmin⟩ := Option.map_eq_some_iff.mp (not_not.mp hread)
    exact ⟨n, hn, min_eq_right_iff.mp hmin⟩

/-- Where no call fails this is `recover`. -/
theorem recoverWith_of_complete {o : RecoverOutcome} (hinit : o.initialized = true)
    (hstat : o.statted = true) {files : Files} (h : o.reading.Complete (logBytes files)) (i : ℕ)
    (ps : List ℕ) : recoverWith o i ps files = (true, recover i ps files) := by
  unfold recoverWith recover
  simp [hinit, hstat, readLogsWith_of_complete h]

theorem recoverWith_effects {o : RecoverOutcome} (hinit : o.initialized = true) (i : ℕ) (ps : List ℕ)
    (files : Files) : ∃ es m,
      (recoverWith o i ps files).2.effects =
        (if o.statted ∧ (readLogsWith o.reading files).2 < (logBytes files).length then
          [.truncateLogFile (readLogsWith o.reading files).2] else []) ++
        (Server.appliedMarks 0 es ++ [.updateMetaData m]) := by
  rcases hr : readLogsWith o.reading files with ⟨logs, v⟩
  refine ⟨logs.take (min (getMetaData files).commitIndex logs.length),
    Node.cutMetaData (getMetaData files) logs, ?_⟩
  simp only [recoverWith, hinit, Bool.not_true, Bool.false_eq_true, if_false, hr,
    Server.replayCommitted_eq, logBytes]
  by_cases hcut : o.statted = true ∧ v < ((files .logs).getD []).length
  · simp [hcut, Server.applied, Server.persistMetaData, Server.emit, Server.new, Node.cutMetaData]
  · simp [hcut, Server.applied, Server.persistMetaData, Server.emit, Server.new, Node.cutMetaData]

/-! ## The log after `recover` -/

/-- The files after `recover`; `w` are the outcomes of its storage calls. -/
def filesAfter (o : RecoverOutcome) (w : ℕ → ℕ → Outcome) (i : ℕ) (ps : List ℕ) (files : Files) :
    Files :=
  performWith w (recoverWith o i ps files).2.effects files

theorem logBytes_performWith_tail (w : ℕ → ℕ → Outcome) (es : List LogEntry) (m : MetaData)
    (files : Files) :
    logBytes (performWith w (Server.appliedMarks 0 es ++ [.updateMetaData m]) files) =
      logBytes files := by
  refine logBytes_congr (performWith_of_not_touched (fun e he => ?_) w files)
  rcases List.mem_append.mp he with he | he
  · obtain ⟨index, command, rfl⟩ := Server.mem_appliedMarks he
    exact Effect.calls_not_logs (by simp) (by simp) (by simp) (by simp)
  · rw [List.mem_singleton.mp he]
    exact Effect.calls_not_logs (by simp) (by simp) (by simp) (by simp)

/-- **The log after `recover`**: cut to the valid bytes, or as it was. -/
theorem logBytes_filesAfter {o : RecoverOutcome} (hinit : o.initialized = true)
    (w : ℕ → ℕ → Outcome) (i : ℕ) (ps : List ℕ) (files : Files) :
    logBytes (filesAfter o w i ps files) =
      if o.statted = true ∧ (readLogsWith o.reading files).2 < (logBytes files).length ∧
          w 0 0 ≠ .fail then
        (logBytes files).take (readLogsWith o.reading files).2
      else logBytes files := by
  obtain ⟨es, m, heffects⟩ := recoverWith_effects hinit i ps files
  set v := (readLogsWith o.reading files).2 with hv
  rw [filesAfter, heffects]
  by_cases hcut : o.statted = true ∧ v < (logBytes files).length
  · rw [if_pos hcut, List.singleton_append, performWith, logBytes_performWith_tail]
    have hnil : v - (logBytes files).length = 0 := by omega
    rcases hf : files .logs with _ | data
    · have hempty : logBytes files = [] := by rw [logBytes, hf, Option.getD_none]
      exact absurd hcut.2 (by simp [hempty])
    · rw [logBytes, hf, Option.getD_some] at hnil
      by_cases hfail : w 0 0 = .fail
      · simp [Effect.calls, truncateLogFile, runCalls, Syscall.run, hfail]
      · simp [Effect.calls, truncateLogFile, runCalls, Syscall.run, hfail, hcut, logBytes, hf, hnil]
  · rw [if_neg hcut, List.nil_append, logBytes_performWith_tail, if_neg]
    rintro ⟨hstat, hlt, -⟩
    exact hcut ⟨hstat, hlt⟩

/-! ## When entries are lost -/

/-- `recover` returns false, or it leaves the longest run of entries in the file and cuts at most what
stands behind it. -/
def KeepsLog (o : RecoverOutcome) (w : ℕ → ℕ → Outcome) (i : ℕ) (ps : List ℕ) (files : Files) :
    Prop :=
  (recoverWith o i ps files).1 = false ∨
    ∃ es n, logCode.IsLongest es (logBytes files) ∧ (serializeLog es).length ≤ n ∧
      logBytes (filesAfter o w i ps files) = (logBytes files).take n

/-- The file begins with an entry and cannot be read in full, and the calls that cut it succeed. -/
structure CutsUnread (o : RecoverOutcome) (w : ℕ → ℕ → Outcome) (files : Files) : Prop where
  initialized : o.initialized = true
  unread : ¬ o.reading.Complete (logBytes files)
  entry : ∃ e : LogEntry, e.WellFormed ∧ serializeLogEntry e <+: logBytes files
  statted : o.statted = true
  truncated : w 0 0 ≠ .fail

/-- A log that begins with an entry and is cut unread is empty. -/
theorem logBytes_of_cutsUnread {o : RecoverOutcome} {w : ℕ → ℕ → Outcome} {files : Files}
    (h : CutsUnread o w files) (i : ℕ) (ps : List ℕ) :
    logBytes (filesAfter o w i ps files) = [] := by
  obtain ⟨e, -, rest, hdata⟩ := h.entry
  have hpos : 0 < (logBytes files).length := by
    rw [← hdata, List.length_append, length_serializeLogEntry]
    omega
  rw [logBytes_filesAfter h.initialized, readLogsWith_of_not_complete h.unread,
    if_pos ⟨h.statted, hpos, h.truncated⟩, List.take_zero]

theorem not_keepsLog {o : RecoverOutcome} {w : ℕ → ℕ → Outcome} {files : Files}
    (h : CutsUnread o w files) (i : ℕ) (ps : List ℕ) : ¬ KeepsLog o w i ps files := by
  rintro (hfalse | ⟨es, n, hlongest, hle, hafter⟩)
  · simp [recoverWith, h.initialized] at hfalse
  · obtain ⟨e, he, hpre⟩ := h.entry
    -- the entry at the front is a run, so the longest run has bytes
    have hrun : logCode.IsRun [e] (logBytes files) := by
      refine ⟨fun x hx => ?_, by rw [PrefixCode.encode_singleton]; exact hpre⟩
      rw [List.mem_singleton.mp hx]
      exact he
    obtain ⟨rest, rfl⟩ := hrun.isPrefix_of_longest hlongest
    have hbytes : 0 < (serializeLog ([e] ++ rest)).length := by
      rw [serializeLog_append, serializeLog_singleton, List.length_append, length_serializeLogEntry]
      omega
    have hdata := hlongest.isPrefix.length_le
    rw [logCode_encode] at hdata
    -- and they are gone
    rw [logBytes_of_cutsUnread h] at hafter
    have hlen := congrArg List.length hafter
    rw [List.length_nil, List.length_take] at hlen
    omega

/-- **Recovery keeps the log unless it cuts a file that it could not read.** -/
theorem keepsLog_iff (o : RecoverOutcome) (w : ℕ → ℕ → Outcome) (i : ℕ) (ps : List ℕ)
    (files : Files) : KeepsLog o w i ps files ↔ ¬ CutsUnread o w files := by
  constructor
  · intro hkeeps hcuts
    exact not_keepsLog hcuts i ps hkeeps
  · intro hsafe
    by_cases hinit : o.initialized = true
    swap
    · exact Or.inl (by simp [recoverWith, hinit])
    right
    obtain ⟨es, hes⟩ := logCode.exists_isLongest (logBytes files)
    have hlen : (serializeLog es).length ≤ (logBytes files).length := hes.isPrefix.length_le
    have hwhole : ∃ n, (serializeLog es).length ≤ n ∧
        logBytes files = (logBytes files).take n := ⟨_, hlen, (List.take_length).symm⟩
    rw [logBytes_filesAfter hinit]
    split
    · next hcut =>
      by_cases hread : o.reading.Complete (logBytes files)
      · obtain ⟨hlongest, hv⟩ := readLogs_isLongest files
        rw [readLogsWith_of_complete hread]
        exact ⟨es, _, hes, by rw [hv, hlongest.unique hes], rfl⟩
      · -- nothing was read: there was nothing to keep
        have hnone : ∀ e : LogEntry, e.WellFormed → ¬ serializeLogEntry e <+: logBytes files := by
          intro e he hpre
          exact hsafe ⟨hinit, hread, ⟨e, he, hpre⟩, hcut.1, hcut.2.2⟩
        have hempty : es = [] := by
          have hnil : logCode.IsLongest [] (logBytes files) :=
            PrefixCode.isLongest_append.mpr ⟨by simp, hnone⟩
          exact hes.unique hnil
        exact ⟨es, _, hes, by rw [hempty, serializeLog_nil, List.length_nil]; exact Nat.zero_le _,
          rfl⟩
    · obtain ⟨n, hn, htake⟩ := hwhole
      exact ⟨es, n, hes, hn, htake⟩

/-- The open of `readLogs` fails, for instance because too many files are open. -/
def openFails : RecoverOutcome := ⟨true, ⟨false, true, some 25⟩, true⟩

/-- The start succeeds, and the entry is gone. -/
theorem recover_cuts_unread_log :
    (recoverWith openFails 1 [2, 3] (Node.prepared oneEntryFiles)).1 = true ∧
      logBytes (filesAfter openFails (fun _ => noFaults) 1 [2, 3] (Node.prepared oneEntryFiles)) =
        [] ∧
      ¬ KeepsLog openFails (fun _ => noFaults) 1 [2, 3] (Node.prepared oneEntryFiles) := by
  have hcuts : CutsUnread openFails (fun _ => noFaults) (Node.prepared oneEntryFiles) :=
    { initialized := rfl
      unread := fun h => absurd h.1 (by decide)
      entry := ⟨⟨1, 1, .noop⟩, ⟨Command.wellFormed_noop, by decide, by decide⟩, List.prefix_rfl⟩
      statted := rfl
      truncated := by decide }
  exact ⟨rfl, logBytes_of_cutsUnread hcuts 1 [2, 3], not_keepsLog hcuts 1 [2, 3]⟩

/-- The most that one `read` returns on Linux. -/
def maxRead : ℕ := 2147479552

/-- **A log beyond that size is emptied** by the next start, although no call fails. -/
theorem large_log_emptied {files : Files} (hlarge : maxRead < (logBytes files).length)
    (hentry : ∃ e : LogEntry, e.WellFormed ∧ serializeLogEntry e <+: logBytes files) (i : ℕ)
    (ps : List ℕ) :
    logBytes (filesAfter ⟨true, ⟨true, true, some maxRead⟩, true⟩ (fun _ => noFaults) i ps files) =
      [] := by
  refine logBytes_of_cutsUnread ⟨rfl, ?_, hentry, rfl, ?_⟩ i ps
  · rintro ⟨-, -, n, hn, hle⟩
    rw [Option.some.injEq] at hn
    omega
  · exact fun hfail => absurd hfail (by simp [noFaults])

end RaftConsensus
