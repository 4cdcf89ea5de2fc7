import RaftConsensus.CrashAtomic
import RaftConsensus.Decoder

/-!
# Recovery from any disk

A start takes two files that know nothing of each other: `metadata.bin`, whose commit index may
speak of entries that are gone, and `logs.bin`, which may end in garbage.  `initStorage` fills
in what is missing, `recover` cuts the log to its longest run of entries and the commit index to
the length of that run, and writes the metadata back.

What it leaves is a *clean* disk: two files that agree.  On a clean disk a start changes nothing
and comes to the same server, so a start that is followed by another one, for instance because
the process died again, has done all there was to do (`recover_any_disk`).
-/

namespace RaftConsensus

/-- `readLogs` returns the longest run of entries of the file, and its length. -/
theorem readLogs_isLongest (files : Files) :
    logCode.IsLongest (readLogs files).1 (logBytes files) ∧
      (readLogs files).2 = (serializeLog (readLogs files).1).length := by
  obtain ⟨⟨es, v⟩, hr⟩ := Option.isSome_iff_exists.mp (deserializeLogEntry_isSome (logBytes files))
  rw [readLogs_eq, hr]
  exact deserializeLogEntry_eq_some.mp hr

namespace Node

/-! ## The files after a start -/

theorem perform_appliedMarks (k : ℕ) (es : List LogEntry) (files : Files) :
    perform (Server.appliedMarks k es) files = files := by
  induction es generalizing k with
  | nil => rfl
  | cons e es ih =>
    rw [Server.appliedMarks, perform_cons]
    exact ih (k + 1)

/-- The files as `initStorage` leaves them. -/
def prepared (files : Files) : Files
  | .metadata => some ((files .metadata).getD (metaDataBytes .initial))
  | .logs => some (logBytes files)
  | .logsTmp => files .logsTmp

theorem perform_initStorage (files : Files) : perform (initStorage files) files = prepared files := by
  funext name
  unfold initStorage
  rcases hm : files .metadata with _ | m <;> rcases hl : files .logs with _ | l <;> cases name <;>
    simp [perform_cons, Effect.calls, createMetaData, createLogs, runCalls, Syscall.run, noFaults,
      prepared, logBytes, hm, hl]

/-- The metadata in a file; a short one reads as zeros. -/
def storedMetaData (stored : Bytes) : MetaData :=
  if stored.length < 32 then .initial
  else ⟨readLittleEndian stored 0, readLittleEndian stored 8, readLittleEndian stored 16,
    readLittleEndian stored 24⟩

theorem getMetaData_prepared (files : Files) :
    getMetaData (prepared files) = storedMetaData ((files .metadata).getD []) := by
  rcases hm : files .metadata with _ | stored
  · have hnew : prepared files .metadata = some (metaDataBytes .initial) := by simp [prepared, hm]
    rw [getMetaData_metaDataBytes hnew]
    rfl
  · simp [getMetaData, prepared, hm, storedMetaData]

theorem readLogs_prepared (files : Files) : readLogs (prepared files) = readLogs files := by
  rw [readLogs_eq, readLogs_eq]
  rfl

/-- The metadata that a start writes. -/
def cutMetaData (m : MetaData) (log : List LogEntry) : MetaData :=
  { m with commitIndex := min m.commitIndex log.length, lastApplied := min m.commitIndex log.length }

/-- The server that a start comes to. -/
def restored (i : ℕ) (ps : List ℕ) (m : MetaData) (log : List LogEntry) : Server :=
  { Server.new i ps with
    running := true
    stateMachine := .replay (log.take (cutMetaData m log).commitIndex)
    metadata := cutMetaData m log
    logEntries := log }

/-- Two files that agree: the bytes of a log, and metadata within it. -/
structure Clean (m : MetaData) (log : List LogEntry) (files : Files) : Prop where
  metadata : files .metadata = some (metaDataBytes m)
  logs : files .logs = some (serializeLog log)
  bounded : m.cut = m
  within : cutMetaData m log = m
  wellFormed : ∀ e ∈ log, e.WellFormed

variable (i : ℕ) (ps : List ℕ) (boot : ℕ)

theorem start_server (files : Files) :
    (start i ps files boot).server =
      restored i ps (storedMetaData ((files .metadata).getD [])) (readLogs files).1 := by
  rw [start, perform_initStorage, recover_eq, getMetaData_prepared, readLogs_prepared]
  rfl

/-- A start writes the two files, and no other. -/
theorem start_files (files : Files) :
    (start i ps files boot).files =
      Function.update (Function.update files .logs (some (serializeLog (readLogs files).1)))
        .metadata (some (metaDataBytes
          (cutMetaData (storedMetaData ((files .metadata).getD [])) (readLogs files).1))) := by
  obtain ⟨hle, htake⟩ := take_readLogs files
  rw [start, bootEffects]
  dsimp only
  rw [perform_append, perform_initStorage, recover_eq, getMetaData_prepared, readLogs_prepared]
  dsimp only
  rw [perform_append, perform_append, perform_appliedMarks, perform_cons, perform_nil, Effect.calls,
    updateMetaData_metadata]
  have hlogs : (prepared files .logs).getD [] = logBytes files := rfl
  rw [hlogs]
  split
  · next hlt =>
    have hnil : (readLogs files).2 - (logBytes files).length = 0 := by omega
    funext name
    cases name <;>
      simp [perform_cons, Effect.calls, truncateLogFile, runCalls, Syscall.run, noFaults, prepared,
        htake, hnil, cutMetaData]
  · next hge =>
    have hall : (readLogs files).2 = (logBytes files).length := by omega
    rw [hall, List.take_length] at htake
    funext name
    cases name <;> simp [prepared, htake, cutMetaData]

theorem storedMetaData_cut (stored : Bytes) : (storedMetaData stored).cut = storedMetaData stored := by
  unfold storedMetaData
  split
  · rfl
  · simp only [MetaData.cut, Nat.mod_eq_of_lt (readLittleEndian_lt _ _)]

/-- **A start leaves a clean disk.** -/
theorem start_clean (files : Files) :
    Clean (cutMetaData (storedMetaData ((files .metadata).getD [])) (readLogs files).1)
      (readLogs files).1 (start i ps files boot).files where
  metadata := by rw [start_files, Function.update_self]
  logs := by rw [start_files, Function.update_of_ne (by simp), Function.update_self]
  bounded := by
    set m := storedMetaData ((files .metadata).getD []) with hm
    have hcut : m.cut = m := storedMetaData_cut _
    have hcommit : m.commitIndex < 2 ^ 64 := by
      rw [← hcut]
      exact Nat.mod_lt _ (by decide)
    have hmin : min m.commitIndex (readLogs files).1.length % 2 ^ 64 =
        min m.commitIndex (readLogs files).1.length :=
      Nat.mod_eq_of_lt ((min_le_left _ _).trans_lt hcommit)
    rw [MetaData.cut, MetaData.mk.injEq] at hcut
    rw [MetaData.cut, cutMetaData, MetaData.mk.injEq]
    exact ⟨hcut.1, hcut.2.1, hmin, hmin⟩
  within := by
    simp only [cutMetaData, min_assoc, min_self]
  wellFormed := fun _ he => wellFormed_of_mem_readLogs he

variable {i ps boot} {m : MetaData} {log : List LogEntry} {files : Files}

/-- **On a clean disk a start changes nothing.** -/
theorem Clean.start (h : Clean m log files) :
    (start i ps files boot).server = restored i ps m log ∧ (start i ps files boot).files = files := by
  have hread : (readLogs files).1 = log := by rw [readLogs_serializeLog h.logs h.wellFormed]
  have hmeta : storedMetaData ((files .metadata).getD []) = m := by
    have hlong : ¬ (metaDataBytes m).length < 32 := by rw [length_metaDataBytes]; decide
    have hget := getMetaData_metaDataBytes h.metadata
    rw [getMetaData, h.metadata, h.bounded] at hget
    rw [h.metadata, Option.getD_some, storedMetaData]
    exact hget
  rw [start_server, start_files, hread, hmeta, h.within]
  refine ⟨rfl, ?_⟩
  rw [← h.logs, ← h.metadata, Function.update_eq_self, Function.update_eq_self]

/-! ## Recovery -/

/-- What a start makes of the files. -/
structure Recovered (files : Files) (n : Node) : Prop where
  log : logCode.IsLongest n.server.logEntries (logBytes files)
  logs : n.files .logs = some (serializeLog n.server.logEntries)
  currentTerm : n.server.metadata.currentTerm =
    (storedMetaData ((files .metadata).getD [])).currentTerm
  votedFor : n.server.metadata.votedFor = (storedMetaData ((files .metadata).getD [])).votedFor
  commitIndex : n.server.metadata.commitIndex =
    min (storedMetaData ((files .metadata).getD [])).commitIndex n.server.logEntries.length
  lastApplied : n.server.metadata.lastApplied = n.server.metadata.commitIndex
  stateMachine : n.server.stateMachine =
    .replay (n.server.logEntries.take n.server.metadata.commitIndex)

/-- **Recovery is defined on any disk, and idempotent.**  Whatever `metadata.bin` and `logs.bin` hold,
the server has the longest run of entries of the log and the stored term and vote, and it has
applied the log up to the stored commit index, as far as there are entries.  Another start on
the files that this one leaves comes to the same server and the same files. -/
theorem recover_any_disk (i : ℕ) (ps : List ℕ) (boot boot' : ℕ) (files : Files) :
    Recovered files (start i ps files boot) ∧
      (start i ps (start i ps files boot).files boot').server = (start i ps files boot).server ∧
      (start i ps (start i ps files boot).files boot').files = (start i ps files boot).files := by
  have hclean := start_clean i ps boot files
  have hserver := start_server i ps boot files
  obtain ⟨hagain, hfiles⟩ := @Clean.start i ps boot' _ _ _ hclean
  refine ⟨?_, ?_, hfiles⟩
  · exact
      { log := by rw [hserver]; exact (readLogs_isLongest files).1
        logs := by rw [hserver]; exact hclean.logs
        currentTerm := by rw [hserver]; rfl
        votedFor := by rw [hserver]; rfl
        commitIndex := by rw [hserver]; rfl
        lastApplied := by rw [hserver]; rfl
        stateMachine := by rw [hserver]; rfl }
  · rw [hagain, hserver, restored, restored, hclean.within]

end Node

end RaftConsensus
