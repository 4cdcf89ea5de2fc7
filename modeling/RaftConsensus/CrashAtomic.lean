import RaftConsensus.Faults

/-!
# A crash in the middle of a log write

`writelog` appends to `logs.bin`, and a crash leaves any prefix of what it appends.
`rewriteLog` builds a new file and renames it, and a crash before the rename leaves the old
one.  `crashAt` is the directory at such a moment.

What makes a torn append harmless is the start that follows.  Whatever `logs.bin` holds, the
valid bytes that `readLogs` reports are the bytes of the entries that it returns, and
`recover` cuts the file there (`start_serialized`).  So the next append lands behind a whole
entry, and every start is on the bytes of some log.
-/

namespace RaftConsensus

/-! ## A start on any file -/

/-- The decoder reports no more bytes than there are. -/
theorem le_of_deserializeLoop {data : Bytes} {fuel pos v : ℕ} {logs es : List LogEntry}
    (hpos : pos ≤ data.length) (h : deserializeLoop data fuel pos logs = some (es, v)) :
    v ≤ data.length := by
  induction fuel generalizing pos logs with
  | zero =>
    rw [deserializeLoop, Option.some.injEq, Prod.mk.injEq] at h
    exact h.2 ▸ hpos
  | succ fuel ih =>
    rw [deserializeLoop] at h
    split at h
    · rcases hp : parseEntry data pos with _ | _ | ⟨e, pos'⟩ <;> rw [hp] at h
      · exact absurd h (by simp)
      · simp only [Option.some.injEq, Prod.mk.injEq] at h
        exact h.2 ▸ hpos
      · exact ih (parseEntry_eq_some hp).2.2.2.2 h
    · simp only [Option.some.injEq, Prod.mk.injEq] at h
      exact h.2 ▸ hpos

/-- **What `readLogs` reports**: the valid bytes are those of the entries that it returns. -/
theorem take_readLogs (files : Files) :
    (readLogs files).2 ≤ (logBytes files).length ∧
      (logBytes files).take (readLogs files).2 = serializeLog (readLogs files).1 := by
  obtain ⟨⟨es, v⟩, hr⟩ := Option.isSome_iff_exists.mp (deserializeLogEntry_isSome (logBytes files))
  rw [readLogs_eq, hr]
  exact ⟨le_of_deserializeLoop (Nat.zero_le _) hr, take_of_deserializeLogEntry hr⟩

/-- Cutting the log at its valid bytes. -/
theorem logBytes_truncateLogFile (files : Files) {v : ℕ} (hv : v ≤ (logBytes files).length) :
    logBytes (runCalls noFaults (truncateLogFile v) files).2 = (logBytes files).take v := by
  rcases hf : files .logs with _ | data
  · simp [truncateLogFile, runCalls, Syscall.run, noFaults, logBytes, hf]
  · rw [logBytes, hf, Option.getD_some] at hv
    have hnil : v - data.length = 0 := by omega
    simp [truncateLogFile, runCalls, Syscall.run, noFaults, logBytes, hf, hnil]

/-- Effects that do not write the log leave its bytes alone. -/
theorem logBytes_perform_idle {es : List Effect} (files : Files)
    (h : ∀ e ∈ es, e.isApplied = true ∨ ∃ m, e = .updateMetaData m ∨ e = .createMetaData) :
    logBytes (perform es files) = logBytes files := by
  induction es generalizing files with
  | nil => rfl
  | cons e es ih =>
    rw [perform_cons, ih _ fun x hx => h x (List.mem_cons_of_mem e hx)]
    refine logBytes_congr (runCalls_of_not_touched ?_ _ _)
    rcases h e List.mem_cons_self with happ | ⟨m, rfl | rfl⟩
    · refine Effect.calls_not_logs ?_ ?_ ?_ ?_
      · rintro x rfl
        exact absurd happ (by simp [Effect.isApplied])
      · rintro xs rfl
        exact absurd happ (by simp [Effect.isApplied])
      · rintro n rfl
        exact absurd happ (by simp [Effect.isApplied])
      · rintro rfl
        exact absurd happ (by simp [Effect.isApplied])
    · exact Effect.calls_not_logs (by simp) (by simp) (by simp) (by simp)
    · exact Effect.calls_not_logs (by simp) (by simp) (by simp) (by simp)

/-- `initStorage` creates a missing log, and touches no other. -/
theorem logBytes_perform_initStorage (files : Files) :
    logBytes (perform (initStorage files) files) = logBytes files := by
  have hmeta : ∀ fs : Files, logBytes (perform
      (if files .metadata = none then [.createMetaData] else []) fs) = logBytes fs := by
    intro fs
    refine logBytes_perform_idle fs fun e he => ?_
    split at he
    · exact Or.inr ⟨.initial, Or.inr (List.mem_singleton.mp he)⟩
    · exact absurd he (by simp)
  rw [initStorage, perform_append]
  split
  · next hnone =>
    have hempty : logBytes files = [] := by rw [logBytes, hnone, Option.getD_none]
    rw [hempty]
    simp [perform_cons, Effect.calls, createLogs, runCalls, Syscall.run, noFaults, logBytes]
  · exact hmeta files

/-- **A start on any file** has a log of well-formed entries, and leaves the bytes of that log in the
file. -/
theorem start_serialized (i : ℕ) (ps : List ℕ) (boot : ℕ) (files : Files) :
    (Node.start i ps files boot).server.logEntries = (readLogs files).1 ∧
      logBytes (Node.start i ps files boot).files = serializeLog (readLogs files).1 := by
  have hinit := logBytes_perform_initStorage files
  have hread : readLogs (perform (initStorage files) files) = readLogs files := by
    rw [readLogs_eq, readLogs_eq, hinit]
  obtain ⟨hle, htake⟩ := take_readLogs files
  refine ⟨by rw [Node.start, recover_eq, hread], ?_⟩
  rw [Node.start, Node.bootEffects]
  dsimp only
  rw [perform_append, recover_eq, hread]
  dsimp only
  rw [perform_append, perform_append, logBytes_perform_idle, logBytes_perform_idle]
  · split
    · next hlt =>
      rw [perform_cons, perform_nil]
      show logBytes (runCalls noFaults (truncateLogFile _) _).2 = _
      rw [logBytes_truncateLogFile _ (hinit ▸ hle), hinit, htake]
    · next hge =>
      have hall : (readLogs files).2 = (logBytes files).length := by
        refine le_antisymm hle ?_
        rw [← hinit]
        exact Nat.not_lt.mp hge
      rw [perform_nil, hinit, ← htake, hall, List.take_length]
  · intro e he
    obtain ⟨index, command, rfl⟩ := Server.mem_appliedMarks he
    exact Or.inl rfl
  · intro e he
    exact Or.inr ⟨_, Or.inl (List.mem_singleton.mp he)⟩

/-! ## The crash -/

/-- The directory after a crash: `k` calls are complete, and of the next, if it is a write, the first
`j` bytes are on disk. -/
def crashAt (calls : List Syscall) (k j : ℕ) (files : Files) : Files :=
  let done := (runCalls noFaults (calls.take k) files).2
  match calls[k]? with
  | some (.write name bytes) =>
    Function.update done name (some ((done name).getD [] ++ bytes.take j))
  | _ => done

/-- A later series of appends. -/
def appends (ws : List LogEntry) (files : Files) : Files := perform (ws.map .writelog) files

theorem logBytes_appends (ws : List LogEntry) (files : Files) :
    logBytes (appends ws files) = logBytes files ++ serializeLog ws := by
  induction ws generalizing files with
  | nil => exact (List.append_nil _).symm
  | cons w ws ih =>
    rw [appends, List.map_cons, perform_cons]
    refine (ih _).trans ?_
    show logBytes (runCalls noFaults (writelog w) files).2 ++ _ = _
    rw [writelog_logs, logBytes, Function.update_self, Option.getD_some, serializeLog_cons,
      List.append_assoc]
    rfl

/-- The start that follows loads `log`: its bytes are in the file then, and what is appended later is
read back in full. -/
structure Recovers (files : Files) (log : List LogEntry) : Prop where
  loads : ∀ i ps boot, (Node.start i ps files boot).server.logEntries = log
  disk : ∀ i ps boot, logBytes (Node.start i ps files boot).files = serializeLog log
  appended : ∀ i ps boot ws, (∀ w ∈ ws, LogEntry.WellFormed w) →
    (readLogs (appends ws (Node.start i ps files boot).files)).1 = log ++ ws

/-- Every start recovers what `readLogs` returns. -/
theorem recovers_readLogs (files : Files) : Recovers files (readLogs files).1 := by
  refine ⟨fun i ps boot => (start_serialized i ps boot files).1,
    fun i ps boot => (start_serialized i ps boot files).2, fun i ps boot ws hws => ?_⟩
  have hbytes : logBytes (appends ws (Node.start i ps files boot).files) =
      serializeLog ((readLogs files).1 ++ ws) := by
    rw [logBytes_appends, (start_serialized i ps boot files).2, serializeLog_append]
  rw [readLogs_of_logBytes hbytes]
  intro e he
  rcases List.mem_append.mp he with he | he
  · exact wellFormed_of_mem_readLogs he
  · exact hws e he

section Crash

variable {files : Files} {old : List LogEntry} (hold : logBytes files = serializeLog old)
  (hwf : ∀ e ∈ old, e.WellFormed)

include hold hwf

/-- A crash inside `writelog`: the append did not happen, in part or in full. -/
theorem readLogs_crashAt_writelog {e : LogEntry} (he : e.WellFormed) (k j : ℕ) :
    (readLogs (crashAt (writelog e) k j files)).1 = old ∨
      (readLogs (crashAt (writelog e) k j files)).1 = old ++ [e] := by
  have hnew : ∀ x ∈ old ++ [e], x.WellFormed := by
    intro x hx
    rcases List.mem_append.mp hx with hx | hx
    · exact hwf x hx
    · exact List.mem_singleton.mp hx ▸ he
  rcases k with _ | _ | k
  · left
    have hsame : crashAt (writelog e) 0 j files = files := rfl
    rw [hsame, readLogs_of_logBytes hold hwf]
  · -- the file is open, and some bytes of the entry are written
    have hbytes : logBytes (crashAt (writelog e) 1 j files) =
        serializeLog old ++ (serializeLogEntry e).take j := by
      rw [← hold]
      simp [crashAt, writelog, runCalls, Syscall.run, noFaults, logBytes]
    rcases Nat.lt_or_ge j (serializeLogEntry e).length with hj | hj
    · exact Or.inl (readLogs_torn hwf he hj hbytes)
    · right
      rw [List.take_of_length_le hj, ← serializeLog_singleton, ← serializeLog_append] at hbytes
      rw [readLogs_of_logBytes hbytes hnew]
  · right
    have hdone : crashAt (writelog e) (k + 2) j files = (runCalls noFaults (writelog e) files).2 := by
      rw [crashAt, List.take_of_length_le (by simp [writelog])]
      rfl
    have hbytes : logBytes (runCalls noFaults (writelog e) files).2 = serializeLog (old ++ [e]) := by
      rw [writelog_logs, logBytes, Function.update_self, Option.getD_some, serializeLog_append,
        serializeLog_singleton, ← hold]
      rfl
    rw [hdone, readLogs_of_logBytes hbytes hnew]

/-- A crash inside `rewriteLog`: the rename happened or not. -/
theorem readLogs_crashAt_rewriteLog {es : List LogEntry} (hes : ∀ e ∈ es, e.WellFormed) (k j : ℕ) :
    (readLogs (crashAt (rewriteLog es) k j files)).1 = old ∨
      (readLogs (crashAt (rewriteLog es) k j files)).1 = es := by
  rcases Nat.lt_or_ge k (rewriteLog es).length with hk | hk
  · left
    have hdone := logBytes_rewriteLog_take es hk files
    -- the writes go to the temporary file
    have hsame : logBytes (crashAt (rewriteLog es) k j files) =
        logBytes (runCalls noFaults ((rewriteLog es).take k) files).2 := by
      rw [crashAt]
      split
      · next name bytes hwrite =>
        have hname : name = .logsTmp := by
          have hmem := List.mem_of_getElem? hwrite
          rcases List.mem_cons.mp hmem with h | h
          · exact absurd h (by simp)
          · rcases List.mem_append.mp h with h | h
            · obtain ⟨e, -, heq⟩ := List.mem_map.mp h
              exact (Syscall.write.inj heq).1.symm
            · exact absurd (List.mem_singleton.mp h) (by simp)
        rw [hname]
        exact logBytes_congr (Function.update_of_ne (by simp) ..)
      · rfl
    rw [readLogs_of_logBytes (hsame.trans (hdone.trans hold)) hwf]
  · right
    have hdone : crashAt (rewriteLog es) k j files = (runCalls noFaults (rewriteLog es) files).2 := by
      rw [crashAt, List.take_of_length_le hk, List.getElem?_eq_none hk]
    have hbytes : logBytes (runCalls noFaults (rewriteLog es) files).2 = serializeLog es := by
      rw [rewriteLog_logs, logBytes, Function.update_of_ne (by simp), Function.update_self,
        Option.getD_some]
    rw [hdone, readLogs_of_logBytes hbytes hes]

end Crash

/-- **Log writes are crash-atomic.**  Wherever a crash cuts `writelog` or `rewriteLog` short, the next
start loads the old log or the new one, leaves its bytes in the file, and what is appended after
that is read back in full. -/
theorem log_writes_crash_atomic {files : Files} {old : List LogEntry}
    (hold : logBytes files = serializeLog old) (hwf : ∀ e ∈ old, e.WellFormed) :
    (∀ e : LogEntry, e.WellFormed → ∀ k j,
      Recovers (crashAt (writelog e) k j files) old ∨
        Recovers (crashAt (writelog e) k j files) (old ++ [e])) ∧
    (∀ es : List LogEntry, (∀ e ∈ es, e.WellFormed) → ∀ k j,
      Recovers (crashAt (rewriteLog es) k j files) old ∨
        Recovers (crashAt (rewriteLog es) k j files) es) := by
  refine ⟨fun e he k j => ?_, fun es hes k j => ?_⟩
  · have h := recovers_readLogs (crashAt (writelog e) k j files)
    rcases readLogs_crashAt_writelog hold hwf he k j with hlog | hlog <;> rw [hlog] at h
    · exact Or.inl h
    · exact Or.inr h
  · have h := recovers_readLogs (crashAt (rewriteLog es) k j files)
    rcases readLogs_crashAt_rewriteLog hold hwf hes k j with hlog | hlog <;> rw [hlog] at h
    · exact Or.inl h
    · exact Or.inr h

/-- A directory whose log has one entry. -/
def oneEntryFiles : Files := Function.update Files.none .logs (some (serializeLog [⟨1, 1, .noop⟩]))

/-- A second entry of which ten bytes are there, and a rewrite that has not come to its rename. -/
theorem log_writes_crash_atomic_torn :
    (Recovers (crashAt (writelog ⟨1, 2, .noop⟩) 1 10 oneEntryFiles) [⟨1, 1, .noop⟩] ∨
      Recovers (crashAt (writelog ⟨1, 2, .noop⟩) 1 10 oneEntryFiles)
        [⟨1, 1, .noop⟩, ⟨1, 2, .noop⟩]) ∧
    (Recovers (crashAt (rewriteLog []) 1 0 oneEntryFiles) [⟨1, 1, .noop⟩] ∨
      Recovers (crashAt (rewriteLog []) 1 0 oneEntryFiles) []) := by
  have hwf : ∀ i < 3, LogEntry.WellFormed ⟨1, i, .noop⟩ := fun i hi =>
    ⟨Command.wellFormed_noop, show 1 < 2 ^ 64 by decide, show i < 2 ^ 64 by omega⟩
  have hone : ∀ e ∈ [(⟨1, 1, .noop⟩ : LogEntry)], e.WellFormed := by
    intro e he
    rw [List.mem_singleton.mp he]
    exact hwf 1 (by decide)
  obtain ⟨happend, hrewrite⟩ := log_writes_crash_atomic
    (show logBytes oneEntryFiles = serializeLog [⟨1, 1, .noop⟩] from rfl) hone
  exact ⟨happend _ (hwf 2 (by decide)) 1 10, hrewrite [] (by simp) 1 0⟩

end RaftConsensus
