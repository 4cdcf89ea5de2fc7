import RaftConsensus.DiskLog

/-!
# The commit index on disk

`applyCommitted` writes the metadata when it has applied something, and every change of term
or vote writes it too, so the commit index on disk may be behind the one in memory but never
ahead of it.  A start takes it from there: it applies the log up to the commit index that it
finds (`recover_committed`), and that is a part of what was committed before the crash.

The bound holds at every crash point, also at the one between the open and the write of
`updateMetaData`, where the file is empty and reads as zero.
-/

namespace RaftConsensus

/-- The commit index on disk. -/
def diskCommit (files : Files) : ℕ := (getMetaData files).commitIndex

theorem diskCommit_congr {files files' : Files} (h : files .metadata = files' .metadata) :
    diskCommit files = diskCommit files' := by
  rw [diskCommit, diskCommit, getMetaData, getMetaData, h]

theorem diskCommit_metaDataBytes {files : Files} {m : MetaData}
    (h : files .metadata = some (metaDataBytes m)) : diskCommit files ≤ m.commitIndex := by
  rw [diskCommit, getMetaData_metaDataBytes h]
  exact Nat.mod_le _ _

theorem diskCommit_empty {files : Files} (h : files .metadata = some []) : diskCommit files = 0 := by
  rw [diskCommit, getMetaData_empty h]
  rfl

/-! ## Storage calls -/

/-- A write of metadata, as far as it has got. -/
theorem diskCommit_updateMetaData_take_le {files : Files} {n : ℕ} (h : diskCommit files ≤ n)
    {m : MetaData} (hm : m.commitIndex ≤ n) (k : ℕ) :
    diskCommit (runCalls noFaults ((updateMetaData m).take k) files).2 ≤ n := by
  rcases k with _ | _ | k
  · exact h
  · refine (diskCommit_empty ?_).trans_le (Nat.zero_le n)
    simp [updateMetaData, runCalls, Syscall.run, noFaults]
  · refine (diskCommit_metaDataBytes (m := m) ?_).trans hm
    rw [List.take_of_length_le (by simp [updateMetaData]), updateMetaData_metadata,
      Function.update_self]

/-- Any storage call, as far as it has got. -/
theorem diskCommit_calls_take_le {files : Files} {n : ℕ} (h : diskCommit files ≤ n) {e : Effect}
    (he : ∀ m, e = .updateMetaData m → m.commitIndex ≤ n) (k : ℕ) :
    diskCommit (runCalls noFaults (e.calls.take k) files).2 ≤ n := by
  by_cases hm : ∃ m, e = .updateMetaData m
  · obtain ⟨m, rfl⟩ := hm
    exact diskCommit_updateMetaData_take_le h (he m rfl) k
  by_cases hc : e = .createMetaData
  · subst hc
    exact diskCommit_updateMetaData_take_le h (m := .initial) (Nat.zero_le n) k
  · refine (diskCommit_congr (runCalls_of_not_touched (fun c hc' => ?_) _ _)).trans_le h
    exact e.calls_not_touched (fun m h => hm ⟨m, h⟩) hc c (List.mem_of_mem_take hc')

/-- The commit index on disk is at most what was there, or what was written. -/
theorem diskCommit_perform_le {es : List Effect} {files : Files} {n : ℕ}
    (h : diskCommit files ≤ n) (hes : ∀ m, .updateMetaData m ∈ es → m.commitIndex ≤ n) :
    diskCommit (perform es files) ≤ n := by
  induction es generalizing files with
  | nil => exact h
  | cons e es ih =>
    rw [perform_cons]
    refine ih ?_ fun m hm => hes m (List.mem_cons_of_mem e hm)
    have := diskCommit_calls_take_le h (fun m hm => hes m (hm ▸ List.mem_cons_self)) e.calls.length
    rwa [List.take_length] at this

/-- So it is at a crash point. -/
theorem diskCommit_crashFiles_le {es : List Effect} {files : Files} {n : ℕ}
    (h : diskCommit files ≤ n) (hes : ∀ m, .updateMetaData m ∈ es → m.commitIndex ≤ n)
    (p : CrashPoint) : diskCommit (crashFiles es p files) ≤ n := by
  have hdone := diskCommit_perform_le h fun m hm => hes m (List.mem_of_mem_take (i := p.done) hm)
  rw [crashFiles]
  rcases he : es[p.done]? with _ | e
  · simpa [runCalls] using hdone
  · refine diskCommit_calls_take_le hdone (fun m hm => hes m ?_) p.calls
    rw [← hm]
    exact List.mem_of_getElem? he

/-! ## Starts -/

namespace Server

/-- The marks of applied entries, one by one. -/
theorem getElem?_of_mem_appliedMarks {k : ℕ} {es : List LogEntry} {e : Effect}
    (he : e ∈ appliedMarks k es) : ∃ j x, es[j]? = some x ∧ e = .applied (k + j + 1) x.command := by
  induction es generalizing k with
  | nil => exact absurd he (by simp [appliedMarks])
  | cons y es ih =>
    rcases List.mem_cons.mp he with rfl | he
    · exact ⟨0, y, rfl, rfl⟩
    · obtain ⟨j, x, hx, rfl⟩ := ih he
      refine ⟨j + 1, x, hx, ?_⟩
      rw [show k + 1 + j + 1 = k + (j + 1) + 1 by omega]

theorem mem_appliedMarks_updateMetaData {k : ℕ} {es : List LogEntry} {m : MetaData} :
    .updateMetaData m ∉ appliedMarks k es := by
  intro h
  obtain ⟨_, _, heq⟩ := mem_appliedMarks h
  exact absurd heq (by simp)

end Server

/-- An effect of a start applies and writes no more than the first `n` entries of `log`. -/
def Effect.Within (log : List LogEntry) (n : ℕ) : Effect → Prop
  | updateMetaData m => m.commitIndex ≤ n
  | applied index command => 0 < index ∧ index ≤ n ∧
      ∃ e, log[index - 1]? = some e ∧ e.command = command
  | _ => True

section Start

variable {i : ℕ} {ps : List ℕ} {files : Files} {log : List LogEntry} {n : ℕ}

theorem diskCommit_initStorage (h : diskCommit files ≤ n) :
    diskCommit (perform (initStorage files) files) ≤ n := by
  refine diskCommit_perform_le h fun m hm => ?_
  rcases List.mem_append.mp hm with hm | hm <;> split at hm <;> simp at hm

/-- **A start stays within what is on disk.** -/
theorem bootEffects_within (hlog : logBytes files = serializeLog log)
    (hwf : ∀ e ∈ log, e.WellFormed) (h : diskCommit files ≤ n) :
    ∀ e ∈ Node.bootEffects i ps files, e.Within log n := by
  intro e he
  rcases List.mem_append.mp he with he | he
  · rcases List.mem_append.mp he with he | he <;> split at he
    · rw [List.mem_singleton.mp he]
      trivial
    · exact absurd he (by simp)
    · rw [List.mem_singleton.mp he]
      trivial
    · exact absurd he (by simp)
  · have hle : diskCommit (perform (initStorage files) files) ≤ n := diskCommit_initStorage h
    have hread := readLogs_of_logBytes (Node.logBytes_initStorage hlog) hwf
    rw [recover_eq, hread] at he
    rcases List.mem_append.mp he with he | he
    · rcases List.mem_append.mp he with he | he
      · split at he
        · rw [List.mem_singleton.mp he]
          trivial
        · exact absurd he (by simp)
      · obtain ⟨j, x, hx, rfl⟩ := Server.getElem?_of_mem_appliedMarks he
        have hj := (List.getElem?_eq_some_iff.mp hx).1
        rw [List.length_take] at hj
        rw [List.getElem?_take_of_lt (by omega)] at hx
        rw [diskCommit] at hle
        refine ⟨Nat.succ_pos _, by omega, x, ?_, rfl⟩
        rwa [Nat.zero_add, Nat.add_sub_cancel]
    · rw [List.mem_singleton.mp he]
      exact (min_le_left _ _).trans hle

/-- Failed starts stay within it as well. -/
theorem failedStarts_within (cs : List CrashPoint) (hlog : logBytes files = serializeLog log)
    (hwf : ∀ e ∈ log, e.WellFormed) (h : diskCommit files ≤ n) :
    diskCommit (Node.failedStarts i ps cs files).2 ≤ n ∧
      ∀ e ∈ (Node.failedStarts i ps cs files).1, e.Within log n := by
  induction cs generalizing files with
  | nil => exact ⟨h, fun e he => absurd he (by simp [Node.failedStarts])⟩
  | cons c cs ih =>
    have hwithin : ∀ e ∈ Node.bootEffects i ps files, e.Within log n :=
      bootEffects_within hlog hwf h
    have hidle := Node.bootEffects_logs i ps LogEntry.WellFormed hlog hwf
    obtain ⟨k, r, hr, hdisk⟩ := logBytes_crashFiles (Monitor.Reads.idle hidle) hlog c
    obtain rfl : r = log := hr.unique
      (Monitor.Reads.idle fun e he => hidle e (List.mem_of_mem_take he))
    obtain ⟨hle, hrest⟩ := ih hdisk (diskCommit_crashFiles_le h (fun m hm => hwithin _ hm) c)
    refine ⟨hle, fun e he => ?_⟩
    rcases List.mem_append.mp he with he | he
    · exact hwithin e (List.mem_of_mem_take he)
    · exact hrest e he

/-- What a node just started has committed and applied. -/
structure Node.Committed (log : List LogEntry) (n : ℕ) (m : Node) : Prop where
  le : m.server.metadata.commitIndex ≤ n
  lastApplied : m.server.metadata.lastApplied = m.server.metadata.commitIndex
  stateMachine : m.server.stateMachine = .replay (log.take m.server.metadata.commitIndex)
  disk : diskCommit m.files ≤ m.server.metadata.commitIndex

theorem start_committed (boot : ℕ) (hlog : logBytes files = serializeLog log)
    (hwf : ∀ e ∈ log, e.WellFormed) (h : diskCommit files ≤ n) :
    (Node.start i ps files boot).Committed log n := by
  have hle : diskCommit (perform (initStorage files) files) ≤ n := diskCommit_initStorage h
  have hread := readLogs_of_logBytes (Node.logBytes_initStorage hlog) hwf
  refine ⟨?_, ?_, ?_, ?_⟩
  · rw [Node.start, recover_eq, hread]
    exact (min_le_left _ _).trans hle
  · rw [Node.start, recover_eq]
  · rw [Node.start, recover_eq, hread]
  · -- the last thing a start does is to write the metadata
    rw [Node.start]
    dsimp only
    rw [Node.bootEffects, recover_eq, ← List.append_assoc, perform_append, perform_cons, perform_nil]
    refine diskCommit_metaDataBytes ?_
    rw [Effect.calls, updateMetaData_metadata, Function.update_self]

/-- **A restart** commits and applies no more than the disk says. -/
theorem restart_committed {m : Node} (cs : List CrashPoint)
    (hlog : logBytes files = serializeLog log) (hwf : ∀ e ∈ log, e.WellFormed)
    (h : diskCommit files ≤ n) :
    (m.restart cs files).1.Committed log n ∧ ∀ e ∈ (m.restart cs files).2, e.Within log n := by
  obtain ⟨hle, hfailed⟩ : diskCommit
      (Node.failedStarts m.server.nodeId m.server.peers cs files).2 ≤ n ∧
      ∀ e ∈ (Node.failedStarts m.server.nodeId m.server.peers cs files).1, e.Within log n :=
    failedStarts_within cs hlog hwf h
  have hdisk : logBytes (Node.failedStarts m.server.nodeId m.server.peers cs files).2 =
      serializeLog log := Node.failedStarts_logBytes cs hlog hwf
  refine ⟨start_committed _ hdisk hwf hle, fun e he => ?_⟩
  rcases List.mem_append.mp he with he | he
  · exact hfailed e he
  · exact bootEffects_within hdisk hwf hle e he

end Start

end RaftConsensus
