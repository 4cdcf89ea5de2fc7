import RaftConsensus.AnyDisk
import RaftConsensus.Faults

/-!
# Appends after a failed append

`writelog` opens `logs.bin` with `O_APPEND`.  When its write stops short it returns false, and
the bytes that were written stay.  The next call appends behind them, and `readLogs` never gets
there: the decoder stops at the torn entry.

A call *lands* if the bytes behind the last readable entry, together with the new ones, begin
with the new ones.  This is so when there is nothing behind the last readable entry, and else
only if the new bytes happen to repeat the torn ones.  Calls that land are read back, all of
them and in order (`appended_entries_read`); one that does not is lost at once
(`not_mem_of_not_lands`).
-/

namespace RaftConsensus

/-! ## One call -/

/-- A call of `writelog`, with what its system calls come to. -/
structure Append where
  entry : LogEntry
  outcome : ℕ → Outcome

/-- The result of the call, and the files after it. -/
def Append.run (a : Append) (files : Files) : Bool × Files :=
  runCalls a.outcome (writelog a.entry) files

/-- What a call adds to the log: a part of the entry, and all of it if it returns true. -/
theorem logBytes_append (a : Append) (files : Files) :
    ∃ chunk, chunk <+: serializeLogEntry a.entry ∧
      logBytes (a.run files).2 = logBytes files ++ chunk ∧
      ((a.run files).1 = true → chunk = serializeLogEntry a.entry) := by
  rw [Append.run, runCalls_fst]
  by_cases hdone : succeeds a.outcome (writelog a.entry) = true
  · refine ⟨_, List.prefix_rfl, ?_, fun _ => rfl⟩
    rw [runCalls_of_succeeds hdone, writelog_logs, logBytes, Function.update_self, Option.getD_some]
    rfl
  · by_cases hopen : a.outcome 0 = .fail
    · have hsame : (runCalls a.outcome (writelog a.entry) files).2 = files := by
        simp [writelog, runCalls, Syscall.run, hopen]
      exact ⟨[], List.nil_prefix, by rw [hsame, List.append_nil], fun h => absurd h hdone⟩
    · have hc : Syscall.run (a.outcome 0) files (.openAppend .logs) =
          (true, Function.update files .logs (some (logBytes files))) := by
        simp [Syscall.run, hopen, logBytes]
      obtain ⟨k, -, hdata⟩ := runCalls_write_failed hc
        (by rw [length_serializeLogEntry]; omega) (Bool.eq_false_iff.mpr hdone)
      refine ⟨(serializeLogEntry a.entry).take k, List.take_prefix _ _, ?_, fun h => absurd h hdone⟩
      rw [writelog, logBytes, hdata, Option.getD_some]

/-- Behind the last readable entry of the log, the bytes of `e` would begin at once. -/
def Lands (files : Files) (e : LogEntry) : Prop :=
  ∀ es rest, logCode.IsLongest es (logBytes files) → logBytes files = serializeLog es ++ rest →
    serializeLogEntry e <+: rest ++ serializeLogEntry e

/-- A log of complete entries is one on which every call lands. -/
theorem lands_of_complete {files : Files} {es : List LogEntry}
    (h : logBytes files = serializeLog es) (hes : ∀ e ∈ es, e.WellFormed) (e : LogEntry) :
    Lands files e := by
  intro xs rest hxs hdata
  have hlongest : logCode.IsLongest es (logBytes files) := h ▸ PrefixCode.isLongest_encode hes
  obtain rfl := hxs.unique hlongest
  have hnil : rest = [] := by
    rw [h] at hdata
    exact List.self_eq_append_right.mp hdata
  rw [hnil, List.nil_append]

/-- Whatever a call does, what could be read before can still be read. -/
theorem readLogs_append_mono (a : Append) (files : Files) :
    (readLogs files).1 <+: (readLogs (a.run files).2).1 := by
  obtain ⟨chunk, -, hdata, -⟩ := logBytes_append a files
  refine (readLogs_isLongest files).1.mono ?_ (readLogs_isLongest _).1
  rw [hdata]
  exact List.prefix_append _ _

/-- **The entry of a call that returns true is read next if and only if the call lands.** -/
theorem readLogs_append_iff {a : Append} (ha : a.entry.WellFormed) {files : Files}
    (hdone : (a.run files).1 = true) :
    (readLogs files).1 ++ [a.entry] <+: (readLogs (a.run files).2).1 ↔ Lands files a.entry := by
  obtain ⟨chunk, -, hdata, hall⟩ := logBytes_append a files
  obtain rfl := hall hdone
  have hbefore := (readLogs_isLongest files).1
  have hafter := (readLogs_isLongest (a.run files).2).1
  obtain ⟨rest, hrest, -⟩ := hbefore.exists_rest
  rw [logCode_encode] at hrest
  have hrun : logCode.encode ((readLogs files).1 ++ [a.entry]) <+: logBytes (a.run files).2 ↔
      serializeLogEntry a.entry <+: rest ++ serializeLogEntry a.entry := by
    rw [hdata, hrest, List.append_assoc, logCode_encode, serializeLog_append,
      serializeLog_singleton, List.prefix_append_right_inj]
  constructor
  · intro hpre xs rest' hxs hdata'
    obtain rfl := hxs.unique hbefore
    have heq : rest' = rest := by
      rw [hrest] at hdata'
      exact (List.append_cancel_left hdata').symm
    rw [heq]
    refine hrun.mp (List.IsPrefix.trans ?_ hafter.isPrefix)
    obtain ⟨tail, htail⟩ := hpre
    rw [← htail, PrefixCode.encode_append _ _ tail]
    exact List.prefix_append _ _
  · intro hlands
    refine PrefixCode.IsRun.isPrefix_of_longest ⟨fun x hx => ?_, ?_⟩ hafter
    · rcases List.mem_append.mp hx with hx | hx
      · exact hbefore.valid x hx
      · rw [List.mem_singleton.mp hx]
        exact ha
    · exact hrun.mpr (hlands _ rest hbefore hrest)

/-- **A call that does not land is lost**: its entry is not among those that have become readable. -/
theorem not_mem_of_not_lands {a : Append} (ha : a.entry.WellFormed) {files : Files}
    (hdone : (a.run files).1 = true) (hlands : ¬ Lands files a.entry) :
    ∃ new, (readLogs (a.run files).2).1 = (readLogs files).1 ++ new ∧ a.entry ∉ new := by
  obtain ⟨new, hnew⟩ := readLogs_append_mono a files
  refine ⟨new, hnew.symm, fun hmem => ?_⟩
  obtain ⟨xs, ys, rfl⟩ := List.append_of_mem hmem
  cases xs with
  | nil =>
    refine hlands ((readLogs_append_iff ha hdone).mp ?_)
    rw [← hnew]
    exact ⟨ys, by simp⟩
  | cons x xs =>
    -- the first new entry is longer than what was torn, so there is no room for this one
    obtain ⟨chunk, -, hdata, hall⟩ := logBytes_append a files
    obtain rfl := hall hdone
    have hbefore := (readLogs_isLongest files).1
    have hafter := (readLogs_isLongest (a.run files).2).1
    obtain ⟨rest, hrest, hstuck⟩ := hbefore.exists_rest
    rw [logCode_encode] at hrest
    have hx : x.WellFormed := hafter.valid x (by rw [← hnew]; simp)
    have hbytes := hafter.isPrefix
    rw [← hnew, logCode_encode, serializeLog_append, List.cons_append, serializeLog_cons,
      serializeLog_append, serializeLog_cons, hdata, hrest, List.append_assoc,
      List.prefix_append_right_inj] at hbytes
    have hlong : rest.length < (serializeLogEntry x).length := by
      by_contra hle
      refine hstuck x hx ?_
      exact List.prefix_of_prefix_length_le ((List.prefix_append _ _).trans hbytes)
        (List.prefix_append _ _) (Nat.not_lt.mp hle)
    have hlen := hbytes.length_le
    simp only [List.length_append] at hlen
    omega

/-! ## A series of calls -/

/-- Calls one after the other: the entries of those that returned true, and the files. -/
def runAppends : List Append → Files → List LogEntry × Files
  | [], files => ([], files)
  | a :: as, files =>
    let r := a.run files
    let rest := runAppends as r.2
    ((if r.1 then [a.entry] else []) ++ rest.1, rest.2)

/-- Every call that returns true lands on the files that it finds. -/
def AllLand : List Append → Files → Prop
  | [], _ => True
  | a :: as, files => ((a.run files).1 = true → Lands files a.entry) ∧ AllLand as (a.run files).2

/-- **Appends that land are read back**: the entries that could be read before, and the entries of all
calls that returned true, in the order of the calls. -/
theorem appended_entries_read {as : List Append} (hwf : ∀ a ∈ as, a.entry.WellFormed)
    {files : Files} (hland : AllLand as files) :
    ((readLogs files).1 ++ (runAppends as files).1).Sublist
      (readLogs (runAppends as files).2).1 := by
  induction as generalizing files with
  | nil => rw [runAppends, List.append_nil]
  | cons a as ih =>
    obtain ⟨hfirst, hrest⟩ := hland
    have hlater := ih (fun b hb => hwf b (List.mem_cons_of_mem a hb)) hrest
    have hstep : (readLogs files).1 ++ (if (a.run files).1 = true then [a.entry] else []) <+:
        (readLogs (a.run files).2).1 := by
      split
      · next hdone => exact (readLogs_append_iff (hwf a List.mem_cons_self) hdone).mpr (hfirst hdone)
      · rw [List.append_nil]
        exact readLogs_append_mono a files
    rw [runAppends, ← List.append_assoc]
    exact (hstep.sublist.append (List.Sublist.refl _)).trans hlater

/-- No call stores a part of its entry: it returns true, or its open fails. -/
def Untorn (a : Append) : Prop :=
  succeeds a.outcome (writelog a.entry) = true ∨ a.outcome 0 = .fail

/-- As long as no write is torn, every call lands. -/
theorem allLand_of_untorn {as : List Append} (hwf : ∀ a ∈ as, a.entry.WellFormed)
    (huntorn : ∀ a ∈ as, Untorn a) {files : Files} {es : List LogEntry}
    (h : logBytes files = serializeLog es) (hes : ∀ e ∈ es, e.WellFormed) : AllLand as files := by
  induction as generalizing files es with
  | nil => trivial
  | cons a as ih =>
    refine ⟨fun _ => lands_of_complete h hes a.entry, ?_⟩
    have hwf' := fun b hb => hwf b (List.mem_cons_of_mem a hb)
    have huntorn' := fun b hb => huntorn b (List.mem_cons_of_mem a hb)
    rcases huntorn a List.mem_cons_self with hdone | hopen
    · obtain ⟨chunk, -, hdata, hall⟩ := logBytes_append a files
      obtain rfl := hall (by rw [Append.run, runCalls_fst, hdone])
      refine @ih hwf' huntorn' _ (es ++ [a.entry]) ?_ fun e he => ?_
      · rw [hdata, h, serializeLog_append, serializeLog_singleton]
      · rcases List.mem_append.mp he with he | he
        · exact hes e he
        · rw [List.mem_singleton.mp he]
          exact hwf a List.mem_cons_self
    · refine ih hwf' huntorn' ?_ hes
      rw [← h]
      simp [Append.run, writelog, runCalls, Syscall.run, hopen]

/-- An open that fails, and then an append. -/
def failedThenWhole : List Append := [⟨⟨1, 1, .noop⟩, fun _ => .fail⟩, ⟨⟨1, 1, .noop⟩, noFaults⟩]

theorem appended_entries_read_untorn :
    ((readLogs Files.none).1 ++ (runAppends failedThenWhole Files.none).1).Sublist
      (readLogs (runAppends failedThenWhole Files.none).2).1 := by
  have hwf : LogEntry.WellFormed ⟨1, 1, .noop⟩ := ⟨Command.wellFormed_noop, by decide, by decide⟩
  have hall : ∀ a ∈ failedThenWhole, a.entry.WellFormed ∧ Untorn a := by
    intro a ha
    rcases List.mem_pair.mp ha with rfl | rfl
    · exact ⟨hwf, Or.inr rfl⟩
    · exact ⟨hwf, Or.inl rfl⟩
  exact appended_entries_read (fun a ha => (hall a ha).1)
    (allLand_of_untorn (fun a ha => (hall a ha).1) (fun a ha => (hall a ha).2)
      (show logBytes Files.none = serializeLog [] from rfl) (by simp))

/-- A write that stores one byte of its entry, and then an append. -/
def tornThenWhole : List Append :=
  [⟨⟨1, 1, .noop⟩, fun n => if n = 1 then .short 1 else .ok⟩, ⟨⟨1, 1, .noop⟩, noFaults⟩]

/-- The second call has returned true, and `readLogs` returns nothing. -/
theorem append_behind_torn_entry :
    logBytes Files.none = serializeLog [] ∧
      (runAppends tornThenWhole Files.none).1 = [⟨1, 1, .noop⟩] ∧
      ¬ (runAppends tornThenWhole Files.none).1.Sublist
        (readLogs (runAppends tornThenWhole Files.none).2).1 := by
  decide +kernel

end RaftConsensus
