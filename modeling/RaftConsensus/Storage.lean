import RaftConsensus.Log
import Mathlib.Logic.Function.Basic

/-!
# Persistent state (`storage.cpp`)

A storage function is the list of system calls that it makes.  Each call can succeed, fail
or, for a write, stop short, and every function returns `false` at the first call that does
not do all of its work; `runCalls` is that discipline.  A crash in the middle of a function
leaves the files as the calls made so far left them.

What a completed write has put into a file is taken to survive, with or without the
`fsync` that follows it.  The human-readable `.txt` copies are left out: nothing reads them.

* `getMetaData_metaDataBytes`: metadata is read back.
* `readLogs_serializeLog`: so is a file of well-formed entries, to its last byte.
-/

namespace RaftConsensus

/-! ## Metadata -/

/-- `struct MetaData`. -/
structure MetaData where
  currentTerm : ℕ
  votedFor : ℕ
  commitIndex : ℕ
  lastApplied : ℕ
  deriving DecidableEq, Repr

/-- `MetaData()`. -/
def MetaData.initial : MetaData := ⟨0, 0, 0, 0⟩

/-- What the 64-bit fields of a file keep of a record. -/
def MetaData.cut (m : MetaData) : MetaData :=
  ⟨m.currentTerm % 2 ^ 64, m.votedFor % 2 ^ 64, m.commitIndex % 2 ^ 64, m.lastApplied % 2 ^ 64⟩

/-- The memory image of a `u_int64_t`: least significant byte first. -/
def littleEndian (v : ℕ) : Bytes := (bigEndian 8 v).reverse

/-- The memory image of a `MetaData`. -/
def metaDataBytes (m : MetaData) : Bytes :=
  littleEndian m.currentTerm ++ (littleEndian m.votedFor ++
    (littleEndian m.commitIndex ++ littleEndian m.lastApplied))

/-- The `u_int64_t` in the eight bytes from position `pos`. -/
def readLittleEndian (data : Bytes) (pos : ℕ) : ℕ := ofBigEndian ((data.drop pos).take 8).reverse

/-! ## Files and system calls -/

/-- The files of a data directory. -/
inductive FileName
  | metadata
  | logs
  | logsTmp
  deriving DecidableEq, Repr

/-- The contents of the files that exist. -/
abbrev Files := FileName → Option Bytes

/-- The directory of a node that never ran. -/
def Files.none : Files := fun _ => Option.none

/-- What a system call can come to. -/
inductive Outcome
  | ok
  | fail
  /-- a write that stops after `k` bytes -/
  | short (k : ℕ)
  deriving DecidableEq, Repr

/-- The system calls that change files. -/
inductive Syscall
  /-- `open(…, O_WRONLY|O_CREAT|O_TRUNC)` -/
  | openTrunc (name : FileName)
  /-- `open(…, O_WRONLY|O_CREAT|O_APPEND)` -/
  | openAppend (name : FileName)
  /-- `write`, at the end of the file -/
  | write (name : FileName) (bytes : Bytes)
  | rename (src dst : FileName)
  | truncate (name : FileName) (n : ℕ)
  deriving DecidableEq, Repr

/-- One system call: whether it did all of its work, and the files after it. -/
def Syscall.run (o : Outcome) (files : Files) : Syscall → Bool × Files
  | openTrunc name =>
    if o = .fail then (false, files) else (true, Function.update files name (some []))
  | openAppend name =>
    if o = .fail then (false, files)
    else (true, Function.update files name (some ((files name).getD [])))
  | write name bytes =>
    match o with
    | .ok => (true, Function.update files name (some ((files name).getD [] ++ bytes)))
    | .fail => (false, files)
    | .short k => (decide (bytes.length ≤ k),
        Function.update files name (some ((files name).getD [] ++ bytes.take k)))
  | rename src dst =>
    if o = .fail then (false, files)
    else (true, Function.update (Function.update files dst (files src)) src none)
  | truncate name n =>
    if o = .fail then (false, files)
    else (true, Function.update files name
      ((files name).map fun data => data.take n ++ List.replicate (n - data.length) 0))

/-- Make the calls in order up to the first one that does not do all of its work. -/
def runCalls (o : ℕ → Outcome) : List Syscall → Files → Bool × Files
  | [], files => (true, files)
  | c :: cs, files =>
    match c.run (o 0) files with
    | (false, files') => (false, files')
    | (true, files') => runCalls (fun n => o (n + 1)) cs files'

/-- No call fails. -/
def noFaults : ℕ → Outcome := fun _ => .ok

/-! ## The storage functions -/

/-- `updateMetaData`. -/
def updateMetaData (metadata : MetaData) : List Syscall :=
  [.openTrunc .metadata, .write .metadata (metaDataBytes metadata)]

/-- `writelog`. -/
def writelog (log : LogEntry) : List Syscall :=
  [.openAppend .logs, .write .logs (serializeLogEntry log)]

/-- `rewriteLog`: the entries into a temporary file, one write each, and a rename. -/
def rewriteLog (entries : List LogEntry) : List Syscall :=
  .openTrunc .logsTmp ::
    (entries.map (fun e => .write .logsTmp (serializeLogEntry e)) ++ [.rename .logsTmp .logs])

/-- `truncateLogFile`. -/
def truncateLogFile (validBytes : ℕ) : List Syscall := [.truncate .logs validBytes]

/-- The part of `initStorage` that creates `metadata.bin`. -/
def createMetaData : List Syscall :=
  [.openTrunc .metadata, .write .metadata (metaDataBytes .initial)]

/-- The part of `initStorage` that creates `logs.bin`. -/
def createLogs : List Syscall := [.openTrunc .logs]

/-- `getMetaData`: the default for a missing or a short file. -/
def getMetaData (files : Files) : MetaData :=
  match files .metadata with
  | none => .initial
  | some data =>
    if data.length < 32 then .initial
    else ⟨readLittleEndian data 0, readLittleEndian data 8, readLittleEndian data 16,
      readLittleEndian data 24⟩

/-- `readLogs` with an `open`, an `fstat` and a `read` that do all of their work (`readLogsWith` has
the others): the entries and `valid_bytes`.  By `deserializeLogEntry_isSome` the decoder never leaves
the file, so the default is never used. -/
def readLogs (files : Files) : List LogEntry × ℕ :=
  match files .logs with
  | none => ([], 0)
  | some data => (deserializeLogEntry data).getD ([], 0)

/-! ## Reading back -/

@[simp] theorem length_littleEndian (v : ℕ) : (littleEndian v).length = 8 := by
  rw [littleEndian, List.length_reverse, length_bigEndian]

@[simp] theorem length_metaDataBytes (m : MetaData) : (metaDataBytes m).length = 32 := by
  simp [metaDataBytes]

theorem readLittleEndian_append (pre post : Bytes) (v : ℕ) :
    readLittleEndian (pre ++ (littleEndian v ++ post)) pre.length = v % 2 ^ 64 := by
  have htake : (littleEndian v ++ post).take 8 = littleEndian v := by
    rw [← length_littleEndian v, List.take_left]
  rw [readLittleEndian, List.drop_left, htake, littleEndian, List.reverse_reverse,
    ofBigEndian_bigEndian]
  norm_num

/-- **Metadata is read back**, field by field. -/
theorem getMetaData_metaDataBytes {files : Files} {m : MetaData}
    (h : files .metadata = some (metaDataBytes m)) : getMetaData files = m.cut := by
  have h1 := readLittleEndian_append [] (littleEndian m.votedFor ++
    (littleEndian m.commitIndex ++ littleEndian m.lastApplied)) m.currentTerm
  have h2 := readLittleEndian_append (littleEndian m.currentTerm)
    (littleEndian m.commitIndex ++ littleEndian m.lastApplied) m.votedFor
  have h3 := readLittleEndian_append (littleEndian m.currentTerm ++ littleEndian m.votedFor)
    (littleEndian m.lastApplied) m.commitIndex
  have h4 := readLittleEndian_append (littleEndian m.currentTerm ++
    (littleEndian m.votedFor ++ littleEndian m.commitIndex)) [] m.lastApplied
  simp only [List.nil_append, List.append_nil, List.append_assoc, List.length_nil,
    List.length_append, length_littleEndian, Nat.reduceAdd] at h1 h2 h3 h4
  unfold getMetaData
  rw [h]
  simp only [length_metaDataBytes, lt_irrefl, if_false, MetaData.cut, MetaData.mk.injEq]
  exact ⟨h1, h2, h3, h4⟩

/-- A metadata file that was opened for writing and not written yet reads as the default. -/
theorem getMetaData_empty {files : Files} (h : files .metadata = some []) :
    getMetaData files = .initial := by
  unfold getMetaData
  rw [h]
  rfl

/-- **A file of well-formed entries is read back**, to its last byte. -/
theorem readLogs_serializeLog {files : Files} {es : List LogEntry}
    (h : files .logs = some (serializeLog es)) (hes : ∀ e ∈ es, e.WellFormed) :
    readLogs files = (es, (serializeLog es).length) := by
  unfold readLogs
  rw [h]
  simp only [deserializeLogEntry_serializeLog hes, Option.getD_some]

/-- What is read from a log file is well formed, whatever the file holds. -/
theorem wellFormed_of_mem_readLogs {files : Files} {e : LogEntry} (he : e ∈ (readLogs files).1) :
    e.WellFormed := by
  unfold readLogs at he
  split at he
  · exact absurd he (by simp)
  · next data _ =>
    rcases hd : deserializeLogEntry data with _ | ⟨es, v⟩
    · have := deserializeLogEntry_isSome data
      rw [hd] at this
      exact absurd this (by simp)
    · rw [hd] at he
      exact wellFormed_of_deserializeLogEntry hd e he

/-! ## What the functions write -/

theorem runCalls_append (o : ℕ → Outcome) (cs ds : List Syscall) (files : Files) :
    runCalls o (cs ++ ds) files =
      if (runCalls o cs files).1 then
        runCalls (fun n => o (cs.length + n)) ds (runCalls o cs files).2
      else runCalls o cs files := by
  induction cs generalizing o files with
  | nil => simp [runCalls]
  | cons c cs ih =>
    rw [List.cons_append, runCalls, runCalls]
    rcases hc : c.run (o 0) files with ⟨b, files'⟩
    rcases b with _ | _
    · simp
    · dsimp only
      rw [ih]
      simp only [List.length_cons, Nat.add_right_comm]

/-- The files that a call can change. -/
def Syscall.touches : Syscall → List FileName
  | openTrunc name | openAppend name | write name _ | truncate name _ => [name]
  | rename src dst => [src, dst]

theorem Syscall.run_of_not_touched {c : Syscall} {name : FileName} (h : name ∉ c.touches)
    (o : Outcome) (files : Files) : (c.run o files).2 name = files name := by
  rcases c with n | n | ⟨n, bytes⟩ | ⟨src, dst⟩ | ⟨n, k⟩ <;>
    simp only [touches, List.mem_cons, List.not_mem_nil, or_false, not_or] at h
  · rw [run]
    split <;> simp [h]
  · rw [run]
    split <;> simp [h]
  · rcases o with _ | _ | k <;> simp [run, h]
  · rw [run]
    split <;> simp [h.1, h.2]
  · rw [run]
    split <;> simp [h]

/-- A file that none of the calls can change stays as it is. -/
theorem runCalls_of_not_touched {name : FileName} {cs : List Syscall}
    (h : ∀ c ∈ cs, name ∉ c.touches) (o : ℕ → Outcome) (files : Files) :
    (runCalls o cs files).2 name = files name := by
  induction cs generalizing o files with
  | nil => rfl
  | cons c cs ih =>
    have hhead := Syscall.run_of_not_touched (h c List.mem_cons_self) (o 0) files
    have htail := fun d hd => h d (List.mem_cons_of_mem c hd)
    rw [runCalls]
    rcases hc : c.run (o 0) files with ⟨b, files'⟩
    rw [hc] at hhead
    rcases b with _ | _
    · exact hhead
    · exact (ih htail _ _).trans hhead

theorem runCalls_cons {c : Syscall} {files files' : Files} (h : c.run .ok files = (true, files'))
    (cs : List Syscall) : runCalls noFaults (c :: cs) files = runCalls noFaults cs files' := by
  rw [runCalls, noFaults, h]
  rfl

theorem updateMetaData_metadata (m : MetaData) (files : Files) :
    (runCalls noFaults (updateMetaData m) files).2 =
      Function.update files .metadata (some (metaDataBytes m)) := by
  simp [updateMetaData, runCalls, Syscall.run, noFaults]

theorem writelog_logs (e : LogEntry) (files : Files) :
    (runCalls noFaults (writelog e) files).2 =
      Function.update files .logs (some ((files .logs).getD [] ++ serializeLogEntry e)) := by
  simp [writelog, runCalls, Syscall.run, noFaults]

/-- The writes into the temporary file leave the bytes of all entries there. -/
theorem runCalls_writes (es : List LogEntry) {files : Files} {data : Bytes}
    (h : files .logsTmp = some data) :
    runCalls noFaults (es.map fun e => .write .logsTmp (serializeLogEntry e)) files =
      (true, Function.update files .logsTmp (some (data ++ serializeLog es))) := by
  induction es generalizing files data with
  | nil => simp [runCalls, ← h]
  | cons e es ih =>
    have hstep : Syscall.run .ok files (.write .logsTmp (serializeLogEntry e)) =
        (true, Function.update files .logsTmp (some (data ++ serializeLogEntry e))) := by
      simp [Syscall.run, h]
    have hdata : Function.update files .logsTmp (some (data ++ serializeLogEntry e)) .logsTmp =
        some (data ++ serializeLogEntry e) := by simp
    rw [List.map_cons, runCalls_cons hstep, ih hdata, serializeLog_cons, List.append_assoc,
      Function.update_idem]

theorem rewriteLog_logs (es : List LogEntry) (files : Files) :
    (runCalls noFaults (rewriteLog es) files).2 =
      Function.update (Function.update files .logs (some (serializeLog es))) .logsTmp none := by
  have hopen : Syscall.run .ok files (.openTrunc .logsTmp) =
      (true, Function.update files .logsTmp (some [])) := by simp [Syscall.run]
  have hwrites := runCalls_writes es (show Function.update files .logsTmp (some []) .logsTmp =
    some [] by simp)
  rw [rewriteLog, runCalls_cons hopen, runCalls_append, hwrites]
  funext name
  rcases name with _ | _ | _ <;> simp [runCalls, Syscall.run, noFaults]

end RaftConsensus
