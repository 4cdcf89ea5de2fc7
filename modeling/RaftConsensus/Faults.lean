import RaftConsensus.DiskLog

/-!
# Storage calls that fail

Every storage function of the source returns whether it did its work.  `succeeds` is that
result, read off the outcomes of the system calls, and the rest of this module says what is on
disk when it is false:

* a metadata file that was opened and not written in full reads as the default
  (`diskBallot_updateMetaData`);
* `rewriteLog` changes nothing before its `rename` (`logBytes_rewriteLog`);
* `writelog` may leave the first bytes of an entry behind, which `readLogs` ignores
  (`readLogs_torn`).
-/

namespace RaftConsensus

/-! ## Success -/

/-- The call does all of its work. -/
def Syscall.completes : Outcome → Syscall → Bool
  | .ok, _ => true
  | .fail, _ => false
  | .short k, write _ bytes => decide (bytes.length ≤ k)
  | .short _, _ => true

/-- What a storage function returns: whether all of its calls did all of their work. -/
def succeeds : (ℕ → Outcome) → List Syscall → Bool
  | _, [] => true
  | o, c :: cs => c.completes (o 0) && succeeds (fun n => o (n + 1)) cs

theorem Syscall.run_fst (o : Outcome) (files : Files) (c : Syscall) :
    (c.run o files).1 = c.completes o := by
  rcases c with n | n | ⟨n, bytes⟩ | ⟨src, dst⟩ | ⟨n, k⟩ <;> rcases o with _ | _ | k <;> rfl

/-- A call that does all of its work does what it does when nothing fails. -/
theorem Syscall.run_of_completes {o : Outcome} {c : Syscall} (h : c.completes o = true)
    (files : Files) : c.run o files = c.run .ok files := by
  rcases c with n | n | ⟨n, bytes⟩ | ⟨src, dst⟩ | ⟨n, k⟩ <;> rcases o with _ | _ | k
  case write.short =>
    have hlen : bytes.length ≤ k := of_decide_eq_true h
    simp [run, hlen, List.take_of_length_le hlen]
  all_goals first | rfl | exact absurd h (by simp [completes])

theorem runCalls_fst (o : ℕ → Outcome) (calls : List Syscall) (files : Files) :
    (runCalls o calls files).1 = succeeds o calls := by
  induction calls generalizing o files with
  | nil => rfl
  | cons c cs ih =>
    have hfst := Syscall.run_fst (o 0) files c
    rw [succeeds, runCalls, ← hfst]
    rcases hc : c.run (o 0) files with ⟨b, files'⟩
    rcases b with _ | _
    · rfl
    · exact ih (fun n => o (n + 1)) files'

/-- **A storage function that returns true** has done what it does when nothing fails. -/
theorem runCalls_of_succeeds {o : ℕ → Outcome} {calls : List Syscall}
    (h : succeeds o calls = true) (files : Files) :
    runCalls o calls files = runCalls noFaults calls files := by
  induction calls generalizing o files with
  | nil => rfl
  | cons c cs ih =>
    rw [succeeds, Bool.and_eq_true] at h
    obtain ⟨hc, hcs⟩ := h
    rw [runCalls, Syscall.run_of_completes hc, runCalls]
    rcases hrun : c.run .ok files with ⟨b, files'⟩
    have hrun' : c.run (noFaults 0) files = (b, files') := hrun
    rw [hrun']
    rcases b with _ | _
    · rfl
    · exact ih hcs files'

theorem runCalls_singleton_snd (o : ℕ → Outcome) (c : Syscall) (files : Files) :
    (runCalls o [c] files).2 = (c.run (o 0) files).2 := by
  rw [runCalls]
  rcases c.run (o 0) files with ⟨_ | _, files'⟩
  · rfl
  · rfl

/-- A file that was opened, when the write that follows stops short. -/
theorem runCalls_write_failed {o : ℕ → Outcome} {c : Syscall} {files : Files} {name : FileName}
    {base bytes : Bytes} (hc : c.run (o 0) files = (true, Function.update files name (some base)))
    (hpos : 0 < bytes.length) (h : succeeds o [c, .write name bytes] = false) :
    ∃ k, k < bytes.length ∧
      (runCalls o [c, .write name bytes] files).2 name = some (base ++ bytes.take k) := by
  have hopen : c.completes (o 0) = true := by rw [← Syscall.run_fst _ files, hc]
  rw [succeeds, succeeds, succeeds, hopen, Bool.true_and, Bool.and_true] at h
  have hlast : (runCalls o [c, .write name bytes] files).2 =
      (Syscall.run (o 1) (Function.update files name (some base)) (.write name bytes)).2 := by
    rw [runCalls, hc]
    exact runCalls_singleton_snd _ _ _
  rw [hlast]
  rcases h1 : o 1 with _ | _ | k <;> rw [Nat.zero_add, h1] at h
  · exact absurd h (by simp [Syscall.completes])
  · exact ⟨0, hpos, by simp [Syscall.run]⟩
  · have hk : k < bytes.length := by simpa [Syscall.completes] using h
    exact ⟨k, hk, by simp [Syscall.run]⟩

/-! ## Metadata -/

/-- **The ballot on disk after `updateMetaData`**: the old one if the file could not be opened, the
new one if it was written, and none if it was opened and not written in full. -/
theorem diskBallot_updateMetaData (o : ℕ → Outcome) {m : MetaData} (ht : m.currentTerm < 2 ^ 64)
    (hv : m.votedFor < 2 ^ 64) (files : Files) :
    diskBallot (runCalls o (updateMetaData m) files).2 =
      if o 0 = .fail then diskBallot files
      else if succeeds o (updateMetaData m) then (m.currentTerm, m.votedFor) else (0, 0) := by
  by_cases hopen : o 0 = .fail
  · rw [if_pos hopen]
    simp [updateMetaData, runCalls, Syscall.run, hopen]
  rw [if_neg hopen]
  split
  · next hdone =>
    rw [runCalls_of_succeeds hdone, updateMetaData_metadata]
    exact diskBallot_metaDataBytes (Function.update_self ..) ht hv
  · next hfailed =>
    have hc : Syscall.run (o 0) files (.openTrunc .metadata) =
        (true, Function.update files .metadata (some [])) := by simp [Syscall.run, hopen]
    obtain ⟨k, hk, hdata⟩ := runCalls_write_failed hc
      (by rw [length_metaDataBytes]; decide) (Bool.eq_false_iff.mpr hfailed)
    rw [List.nil_append] at hdata
    rw [length_metaDataBytes] at hk
    -- fewer than 32 bytes read as the default
    rw [updateMetaData, diskBallot, getMetaData, hdata]
    dsimp only
    rw [if_pos (by rw [List.length_take]; omega)]
    rfl

/-! ## The log -/

/-- **The log after `rewriteLog`**: the new one if all calls did their work, and else the old. -/
theorem logBytes_rewriteLog (o : ℕ → Outcome) (es : List LogEntry) (files : Files) :
    logBytes (runCalls o (rewriteLog es) files).2 =
      if succeeds o (rewriteLog es) then serializeLog es else logBytes files := by
  split
  · next hcomp =>
    rw [runCalls_of_succeeds hcomp, rewriteLog_logs, logBytes, Function.update_of_ne (by simp),
      Function.update_self, Option.getD_some]
  · next hcomp =>
    set front : List Syscall := .openTrunc .logsTmp ::
      es.map fun e => .write .logsTmp (serializeLogEntry e) with hfront
    have hcalls : rewriteLog es = front ++ [.rename .logsTmp .logs] := rfl
    -- the calls before the rename leave the log alone
    have hold : logBytes (runCalls o front files).2 = logBytes files := by
      refine logBytes_congr (runCalls_of_not_touched (fun c hc => ?_) _ _)
      rcases List.mem_cons.mp hc with rfl | hc
      · simp [Syscall.touches]
      · obtain ⟨e, -, rfl⟩ := List.mem_map.mp hc
        simp [Syscall.touches]
    rw [hcalls, runCalls_append]
    split
    · next hdone =>
      have hrename : o front.length = .fail := by
        by_contra hne
        refine hcomp ?_
        rw [← runCalls_fst o _ files, hcalls, runCalls_append, if_pos hdone]
        simp [runCalls, Syscall.run, hne]
      simpa [runCalls, Syscall.run, hrename] using hold
    · exact hold

/-- An entry of which only the first bytes are there is not parsed. -/
theorem parseEntry_torn (pre : Bytes) {e : LogEntry} (he : e.WellFormed) {k : ℕ}
    (hk : k < (serializeLogEntry e).length) :
    parseEntry (pre ++ (serializeLogEntry e).take k) pre.length = some none := by
  have hsome := parseEntry_isSome (pre ++ (serializeLogEntry e).take k) pre.length
  rcases hp : parseEntry (pre ++ (serializeLogEntry e).take k) pre.length with _ | _ | ⟨x, pos'⟩
  · rw [hp] at hsome
    exact absurd hsome (by simp)
  · rfl
  · obtain ⟨keyLen, valLen, hkey, hval, hpos, hle⟩ := parseEntry_size hp
    have htake : pre ++ (serializeLogEntry e).take k =
        (pre ++ (serializeLogEntry e ++ [])).take (pre.length + k) := by
      rw [List.append_nil, List.take_length_add_append]
    rw [htake] at hkey hval
    obtain ⟨-, -, hkl, hvl⟩ := read_header pre [] e
    rw [readBigEndian_of_take hkey, Option.some.injEq] at hkl
    rw [readBigEndian_of_take hval, Option.some.injEq] at hvl
    obtain ⟨hk1, hv1, hklt, hvlt⟩ := he.command
    rw [List.length_append, List.length_take] at hle
    rw [length_serializeLogEntry] at hk hle
    omega

/-- The first bytes of an entry after a log of well-formed entries are ignored. -/
theorem readLogs_torn {files : Files} {es : List LogEntry} (hes : ∀ e ∈ es, e.WellFormed)
    {e : LogEntry} (he : e.WellFormed) {k : ℕ} (hk : k < (serializeLogEntry e).length)
    (h : logBytes files = serializeLog es ++ (serializeLogEntry e).take k) :
    (readLogs files).1 = es := by
  have hloop : ∀ fuel, deserializeLoop (serializeLog es ++ (serializeLogEntry e).take k) fuel
      (serializeLog es).length es = some (es, (serializeLog es).length) := by
    intro fuel
    rcases fuel with _ | fuel
    · rfl
    · rw [deserializeLoop]
      split
      · rw [parseEntry_torn _ he hk]
      · rfl
  have hdata : deserializeLogEntry (logBytes files) = some (es, (serializeLog es).length) := by
    have hlen : es.length ≤ (logBytes files).length := by
      have := length_le_serializeLog es
      rw [h, List.length_append]
      omega
    obtain ⟨fuel, hfuel⟩ := Nat.exists_eq_add_of_le hlen
    have hread := deserializeLoop_serializeLog ((serializeLogEntry e).take k) hes fuel [] []
    simp only [List.nil_append, List.length_nil, Nat.zero_add] at hread
    rw [deserializeLogEntry, hfuel, h, hread, hloop]
  rw [readLogs_eq, hdata, Option.getD_some]

end RaftConsensus
