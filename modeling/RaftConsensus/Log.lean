import RaftConsensus.Command
import Mathlib.Logic.Function.Iterate

/-!
# Log entries and their byte form (`log.cpp`)

An entry is written as its term and index (8 bytes each), its command, and a CRC-32 of
all of that.  `DeserializeLogEntry` reads entries from the start of a byte vector until
the rest is too short or a checksum differs, and reports how far it came.

The field `Checksum` of the source's `LogEntry` is left out: it is filled in by the
parser and read by nobody, since `SerializeLogEntry` computes the checksum anew.

* `parseEntry_serializeLogEntry`: a well-formed entry is read back.
* `deserializeLogEntry_serializeLog`: so is any sequence of them, to the last byte.
* `deserializeLogEntry_isSome`: on no input does the parser leave the vector.
* `wellFormed_of_parseEntry`: whatever the parser returns is well formed.
-/

namespace RaftConsensus

/-! ## CRC-32 -/

/-- One turn of the inner loop of `init_crc32_table`. -/
def crc32TableStep (crc : BitVec 32) : BitVec 32 :=
  if crc &&& 1#32 ≠ 0#32 then (crc >>> 1) ^^^ 0xEDB88320#32 else crc >>> 1

/-- `crc32_table[i]`. -/
def crc32Table (i : BitVec 32) : BitVec 32 := crc32TableStep^[8] i

/-- The loop body of `computeCRC32`. -/
def crc32Byte (crc : BitVec 32) (byte : UInt8) : BitVec 32 :=
  (crc >>> 8) ^^^ crc32Table ((crc ^^^ BitVec.ofNat 32 byte.toNat) &&& 0xFF#32)

/-- `computeCRC32`. -/
def computeCRC32 (data : Bytes) : BitVec 32 :=
  data.foldl crc32Byte 0xFFFFFFFF#32 ^^^ 0xFFFFFFFF#32

/-! ## Entries -/

/-- `struct LogEntry`. -/
structure LogEntry where
  term : ℕ
  index : ℕ
  command : Command
  deriving DecidableEq, Repr

/-- The bytes under the checksum: term, index and command. -/
def LogEntry.payload (log : LogEntry) : Bytes :=
  bigEndian 8 log.term ++ (bigEndian 8 log.index ++
    serialize log.command.operation log.command.keyLen log.command.valueLen
      log.command.key log.command.value)

/-- `SerializeLogEntry`. -/
def serializeLogEntry (log : LogEntry) : Bytes :=
  log.payload ++ bigEndian 4 (computeCRC32 log.payload).toNat

/-- The bytes of a whole log, entry after entry. -/
def serializeLog (entries : List LogEntry) : Bytes := entries.flatMap serializeLogEntry

/-- One turn of the loop of `DeserializeLogEntry`, at position `pos`.  The outer `none` is a
read outside `data`; the inner one is a `break`. -/
def parseEntry (data : Bytes) (pos : ℕ) : Option (Option (LogEntry × ℕ)) := do
  -- at least 16 bytes for term and index, 5 for the least command, 4 for the CRC
  if data.length - pos < 25 then return none
  let term ← readBigEndian data pos 8
  let index ← readBigEndian data (pos + 8) 8
  if data.length - (pos + 16) < 5 then return none
  let keyLen ← readBigEndian data (pos + 16 + 1) 2
  let valLen ← readBigEndian data (pos + 16 + 3) 2
  let cmdSize := 5 + keyLen + valLen
  if data.length - (pos + 16) < cmdSize + 4 then return none
  let cmdBytes ← slice data (pos + 16) (pos + 16 + cmdSize)
  let cmd ← deserialize cmdBytes
  let checksum ← readBigEndian data (pos + 16 + cmdSize) 4
  let checkData ← slice data pos (pos + 16 + cmdSize)
  if checksum ≠ (computeCRC32 checkData).toNat then return none
  return some (⟨term, index, cmd⟩, pos + 16 + cmdSize + 4)

/-- The loop of `DeserializeLogEntry`.  Every turn that goes on consumes 25 bytes or more,
so the length of `data` is fuel enough. -/
def deserializeLoop (data : Bytes) : ℕ → ℕ → List LogEntry → Option (List LogEntry × ℕ)
  | 0, pos, logs => some (logs, pos)
  | fuel + 1, pos, logs =>
    if pos < data.length then
      match parseEntry data pos with
      | none => none
      | some none => some (logs, pos)
      | some (some (e, pos')) => deserializeLoop data fuel pos' (logs ++ [e])
    else some (logs, pos)

/-- `DeserializeLogEntry`: the entries and `valid_bytes`. -/
def deserializeLogEntry (data : Bytes) : Option (List LogEntry × ℕ) :=
  deserializeLoop data data.length 0 []

/-! ## What is written is read back -/

/-- The command is well formed, and term and index are 64-bit numbers. -/
structure LogEntry.WellFormed (e : LogEntry) : Prop where
  command : e.command.WellFormed
  term_lt : e.term < 2 ^ 64
  index_lt : e.index < 2 ^ 64

theorem length_payload (e : LogEntry) :
    e.payload.length = 21 + e.command.key.length + e.command.value.length := by
  simp only [LogEntry.payload, List.length_append, length_bigEndian, length_serialize]
  omega

theorem length_serializeLogEntry (e : LogEntry) :
    (serializeLogEntry e).length = 25 + e.command.key.length + e.command.value.length := by
  rw [serializeLogEntry, List.length_append, length_payload, length_bigEndian]
  omega

@[simp] theorem serializeLog_nil : serializeLog [] = [] := rfl

theorem serializeLog_append (es es' : List LogEntry) :
    serializeLog (es ++ es') = serializeLog es ++ serializeLog es' := by
  simp [serializeLog]

theorem serializeLog_cons (e : LogEntry) (es : List LogEntry) :
    serializeLog (e :: es) = serializeLogEntry e ++ serializeLog es := rfl

theorem serializeLog_singleton (e : LogEntry) : serializeLog [e] = serializeLogEntry e := by
  rw [serializeLog_cons, serializeLog_nil, List.append_nil]

/-- The fixed-width fields at the head of an entry, at its position in a file. -/
theorem read_header (pre post : Bytes) (e : LogEntry) :
    readBigEndian (pre ++ (serializeLogEntry e ++ post)) pre.length 8 =
        some (e.term % 2 ^ 64) ∧
      readBigEndian (pre ++ (serializeLogEntry e ++ post)) (pre.length + 8) 8 =
        some (e.index % 2 ^ 64) ∧
      readBigEndian (pre ++ (serializeLogEntry e ++ post)) (pre.length + 16 + 1) 2 =
        some (e.command.keyLen % 65536) ∧
      readBigEndian (pre ++ (serializeLogEntry e ++ post)) (pre.length + 16 + 3) 2 =
        some (e.command.valueLen % 65536) := by
  have field : ∀ (front back : Bytes) (w v pos : ℕ),
      pre ++ (serializeLogEntry e ++ post) = front ++ (bigEndian w v ++ back) →
      pos = front.length →
      readBigEndian (pre ++ (serializeLogEntry e ++ post)) pos w = some (v % 256 ^ w) := by
    intro front back w v pos heq hpos
    rw [heq, readBigEndian_append_right front _ back hpos (length_bigEndian w v).symm,
      ofBigEndian_bigEndian]
  set c := e.command with hc
  set tail : Bytes := bigEndian 2 c.valueLen ++ (c.key ++ (c.value ++
    (bigEndian 4 (computeCRC32 e.payload).toNat ++ post))) with htail
  have hflat : pre ++ (serializeLogEntry e ++ post) =
      pre ++ (bigEndian 8 e.term ++ (bigEndian 8 e.index ++
        (c.operation :: (bigEndian 2 c.keyLen ++ tail)))) := by
    simp only [htail, serializeLogEntry, LogEntry.payload, serialize, ← hc, List.append_assoc,
      List.cons_append]
  refine ⟨field pre _ 8 e.term _ hflat rfl, ?_, ?_, ?_⟩
  · refine field (pre ++ bigEndian 8 e.term)
      (c.operation :: (bigEndian 2 c.keyLen ++ tail)) 8 e.index _ ?_ (by simp)
    rw [hflat]
    simp only [List.append_assoc]
  · refine field (pre ++ (bigEndian 8 e.term ++ (bigEndian 8 e.index ++ [c.operation]))) tail 2
      c.keyLen _ ?_ (by simp)
    rw [hflat]
    simp only [List.append_assoc, List.cons_append, List.nil_append]
  · refine field (pre ++ (bigEndian 8 e.term ++ (bigEndian 8 e.index ++
      c.operation :: bigEndian 2 c.keyLen)))
      (c.key ++ (c.value ++ (bigEndian 4 (computeCRC32 e.payload).toNat ++ post))) 2
      c.valueLen _ ?_ (by simp)
    rw [hflat]
    simp only [htail, List.append_assoc, List.cons_append]

/-- **A well-formed entry is read back**, wherever it stands. -/
theorem parseEntry_serializeLogEntry (pre post : Bytes) {e : LogEntry} (he : e.WellFormed) :
    parseEntry (pre ++ (serializeLogEntry e ++ post)) pre.length =
      some (some (e, pre.length + (serializeLogEntry e).length)) := by
  obtain ⟨hterm, hindex, hkl, hvl⟩ := read_header pre post e
  obtain ⟨⟨hk, hv, hklt, hvlt⟩, ht, hi⟩ := he
  rw [Nat.mod_eq_of_lt ht] at hterm
  rw [Nat.mod_eq_of_lt hi] at hindex
  rw [Nat.mod_eq_of_lt (by omega)] at hkl hvl
  set data := pre ++ (serializeLogEntry e ++ post) with hdata
  set c := e.command with hc
  have hlen : data.length = pre.length + (25 + c.key.length + c.value.length + post.length) := by
    rw [hdata, List.length_append, List.length_append, length_serializeLogEntry]
  have hpl : e.payload.length = 21 + c.key.length + c.value.length := length_payload e
  have hcmd : slice data (pre.length + 16) (pre.length + 16 + (5 + c.keyLen + c.valueLen)) =
      some (serialize c.operation c.keyLen c.valueLen c.key c.value) := by
    have := slice_append_right (pre ++ (bigEndian 8 e.term ++ bigEndian 8 e.index))
      (serialize c.operation c.keyLen c.valueLen c.key c.value)
      (bigEndian 4 (computeCRC32 e.payload).toNat ++ post)
      (i := pre.length + 16) (j := pre.length + 16 + (5 + c.keyLen + c.valueLen))
      (by simp) (by rw [length_serialize, hk, hv]; simp)
    rw [← this, hdata]
    simp only [serializeLogEntry, LogEntry.payload, ← hc, List.append_assoc]
  have hpay : slice data pre.length (pre.length + 16 + (5 + c.keyLen + c.valueLen)) =
      some e.payload := by
    rw [hdata, serializeLogEntry, List.append_assoc]
    exact slice_append_right _ _ _ rfl (by omega)
  have hcrc : readBigEndian data (pre.length + 16 + (5 + c.keyLen + c.valueLen)) 4 =
      some (computeCRC32 e.payload).toNat := by
    have := readBigEndian_append_right (pre ++ e.payload)
      (bigEndian 4 (computeCRC32 e.payload).toNat) post
      (i := pre.length + 16 + (5 + c.keyLen + c.valueLen)) (w := 4)
      (by rw [List.length_append]; omega) (by simp)
    rw [ofBigEndian_bigEndian_of_lt (computeCRC32 e.payload).isLt] at this
    rw [← this, hdata]
    simp only [serializeLogEntry, List.append_assoc]
  have hdes := deserialize_serialize c.operation hk hv hklt hvlt
  unfold parseEntry
  rw [if_neg (by omega), hterm]
  simp only [Option.bind_eq_bind, Option.bind_some, hindex]
  rw [if_neg (by omega), hkl]
  simp only [Option.bind_some, hvl]
  rw [if_neg (by omega), hcmd]
  simp only [Option.bind_some, hdes, hcrc, hpay]
  rw [if_neg (by simp), length_serializeLogEntry]
  simp only [Option.pure_def, Option.some.injEq, Prod.mk.injEq]
  exact ⟨rfl, by rw [← hc]; omega⟩

/-- From a position where well-formed entries start, the loop collects them. -/
theorem deserializeLoop_serializeLog (post : Bytes) {es : List LogEntry}
    (hes : ∀ e ∈ es, e.WellFormed) (fuel : ℕ) :
    ∀ (pre : Bytes) (logs : List LogEntry),
      deserializeLoop (pre ++ (serializeLog es ++ post)) (es.length + fuel) pre.length logs =
        deserializeLoop (pre ++ (serializeLog es ++ post)) fuel
          (pre.length + (serializeLog es).length) (logs ++ es) := by
  induction es with
  | nil => intro pre logs; simp
  | cons e es ih =>
    intro pre logs
    have hpos : pre.length < (pre ++ (serializeLog (e :: es) ++ post)).length := by
      rw [List.length_append, List.length_append, serializeLog_cons, List.length_append,
        length_serializeLogEntry]
      omega
    have hparse := parseEntry_serializeLogEntry pre (serializeLog es ++ post)
      (hes e List.mem_cons_self)
    rw [← List.append_assoc (serializeLogEntry e), ← serializeLog_cons] at hparse
    have hstep : ∀ n, deserializeLoop (pre ++ (serializeLog (e :: es) ++ post)) (n + 1)
        pre.length logs = deserializeLoop (pre ++ (serializeLog (e :: es) ++ post)) n
          (pre.length + (serializeLogEntry e).length) (logs ++ [e]) := by
      intro n
      rw [deserializeLoop, if_pos hpos, hparse]
    have hassoc : pre ++ (serializeLog (e :: es) ++ post) =
        (pre ++ serializeLogEntry e) ++ (serializeLog es ++ post) := by
      rw [serializeLog_cons]
      simp only [List.append_assoc]
    have hlen : (pre ++ serializeLogEntry e).length =
        pre.length + (serializeLogEntry e).length := List.length_append
    rw [List.length_cons, Nat.add_right_comm, hstep, hassoc,
      ← hlen, ih (fun x hx => hes x (List.mem_cons_of_mem _ hx)) (pre ++ serializeLogEntry e)
        (logs ++ [e]), serializeLog_cons, List.length_append, List.length_append,
      List.append_assoc logs, List.singleton_append, Nat.add_assoc]

theorem length_le_serializeLog (es : List LogEntry) : es.length ≤ (serializeLog es).length := by
  induction es with
  | nil => simp
  | cons e es ih =>
    rw [serializeLog_cons, List.length_cons, List.length_append, length_serializeLogEntry]
    omega

/-- **A file of well-formed entries is read back completely.** -/
theorem deserializeLogEntry_serializeLog {es : List LogEntry} (hes : ∀ e ∈ es, e.WellFormed) :
    deserializeLogEntry (serializeLog es) = some (es, (serializeLog es).length) := by
  obtain ⟨fuel, hfuel⟩ := Nat.exists_eq_add_of_le (length_le_serializeLog es)
  have h := deserializeLoop_serializeLog [] hes fuel [] []
  simp only [List.nil_append, List.append_nil, List.length_nil, Nat.zero_add] at h
  rw [deserializeLogEntry, hfuel, h, ← hfuel]
  rcases fuel with _ | fuel
  · rfl
  · rw [deserializeLoop, if_neg (lt_irrefl _)]

/-! ## What the parser returns -/

theorem slice_eq_some (data : Bytes) {i j : ℕ} (h : i ≤ j) (hj : j ≤ data.length) :
    slice data i j = some ((data.drop i).take (j - i)) := if_pos ⟨h, hj⟩

theorem readBigEndian_eq_some (data : Bytes) {pos w : ℕ} (h : pos + w ≤ data.length) :
    readBigEndian data pos w = some (ofBigEndian ((data.drop pos).take w)) := by
  rw [readBigEndian, slice_eq_some _ (by omega) h, Nat.add_sub_cancel_left]
  rfl

/-- A number read from `w` bytes is below `256 ^ w`. -/
theorem lt_of_readBigEndian {data : Bytes} {pos w n : ℕ} (h : readBigEndian data pos w = some n) :
    n < 256 ^ w := by
  obtain ⟨mid, hmid, rfl⟩ := Option.map_eq_some_iff.mp h
  have hlen : mid.length ≤ w := by
    unfold slice at hmid
    split at hmid
    · rw [← Option.some.inj hmid, List.length_take]
      omega
    · exact absurd hmid (by simp)
  exact (ofBigEndian_lt mid).trans_le (Nat.pow_le_pow_right (by decide) hlen)

/-- Reading inside a slice is reading in the whole. -/
theorem readBigEndian_slice {data bs : Bytes} {i j : ℕ} (h : slice data i j = some bs)
    (pos w : ℕ) (hw : i + pos + w ≤ j) : readBigEndian bs pos w = readBigEndian data (i + pos) w := by
  unfold slice at h
  split at h
  · next hij =>
    rw [← Option.some.inj h, readBigEndian_eq_some, readBigEndian_eq_some _ (by omega),
      List.drop_take, List.take_take, List.drop_drop]
    · rw [min_eq_left (by omega)]
    · rw [List.length_take, List.length_drop]
      omega
  · exact absurd h (by simp)

/-- **No read leaves the vector.** -/
theorem parseEntry_isSome (data : Bytes) (pos : ℕ) : (parseEntry data pos).isSome := by
  unfold parseEntry
  split
  · rfl
  next h25 =>
  rw [readBigEndian_eq_some _ (by omega), Option.bind_eq_bind, Option.bind_some,
    readBigEndian_eq_some _ (by omega), Option.bind_eq_bind, Option.bind_some]
  split
  · rfl
  rcases hkl : readBigEndian data (pos + 16 + 1) 2 with _ | keyLen
  · rw [readBigEndian_eq_some _ (by omega)] at hkl
    exact absurd hkl (by simp)
  rcases hvl : readBigEndian data (pos + 16 + 3) 2 with _ | valLen
  · rw [readBigEndian_eq_some _ (by omega)] at hvl
    exact absurd hvl (by simp)
  simp only [Option.bind_eq_bind, Option.bind_some]
  split
  · rfl
  next hsize =>
  have hcmd := slice_eq_some data (i := pos + 16) (j := pos + 16 + (5 + keyLen + valLen))
    (by omega) (by omega)
  have hlen : ((data.drop (pos + 16)).take (5 + keyLen + valLen)).length =
      5 + keyLen + valLen := by
    rw [List.length_take, List.length_drop]
    omega
  rw [Nat.add_sub_cancel_left] at hcmd
  -- the length fields inside the slice are the ones just read
  have hkl' := readBigEndian_slice hcmd 1 2 (by omega)
  have hvl' := readBigEndian_slice hcmd 3 2 (by omega)
  rw [hkl] at hkl'
  rw [hvl] at hvl'
  have hdes : ∃ cmd, deserialize ((data.drop (pos + 16)).take (5 + keyLen + valLen)) =
      some cmd := by
    unfold deserialize
    rw [List.getElem?_eq_getElem (by rw [hlen]; omega)]
    simp only [Option.bind_eq_bind, Option.bind_some, hkl', hvl']
    rw [slice_eq_some _ (by omega) (by rw [hlen]; omega), Option.bind_some,
      slice_eq_some _ (by omega) (by rw [hlen]), Option.bind_some]
    exact ⟨_, rfl⟩
  obtain ⟨cmd, hdes⟩ := hdes
  rw [hcmd, Option.bind_some, hdes, Option.bind_some, readBigEndian_eq_some _ (by omega),
    Option.bind_some, slice_eq_some _ (by omega) (by omega), Option.bind_some]
  split <;> rfl

/-- **What the parser returns**: its fields as they stand in the file, a well-formed command,
and a position past the entry. -/
theorem parseEntry_eq_some {data : Bytes} {pos pos' : ℕ} {e : LogEntry}
    (h : parseEntry data pos = some (some (e, pos'))) :
    readBigEndian data pos 8 = some e.term ∧ readBigEndian data (pos + 8) 8 = some e.index ∧
      e.command.WellFormed ∧ pos < pos' ∧ pos' ≤ data.length := by
  unfold parseEntry at h
  split at h
  · simp at h
  obtain ⟨term, hterm, h⟩ := Option.bind_eq_some_iff.mp h
  obtain ⟨index, hindex, h⟩ := Option.bind_eq_some_iff.mp h
  split at h
  · simp at h
  obtain ⟨keyLen, -, h⟩ := Option.bind_eq_some_iff.mp h
  obtain ⟨valLen, -, h⟩ := Option.bind_eq_some_iff.mp h
  dsimp only at h
  split at h
  · simp at h
  next hsize =>
  obtain ⟨cmdBytes, -, h⟩ := Option.bind_eq_some_iff.mp h
  obtain ⟨cmd, hcmd, h⟩ := Option.bind_eq_some_iff.mp h
  obtain ⟨checksum, -, h⟩ := Option.bind_eq_some_iff.mp h
  obtain ⟨checkData, -, h⟩ := Option.bind_eq_some_iff.mp h
  split at h
  · simp at h
  simp only [Option.pure_def, Option.some.injEq, Prod.mk.injEq] at h
  obtain ⟨rfl, rfl⟩ := h
  exact ⟨hterm, hindex, wellFormed_of_deserialize hcmd, by omega, by omega⟩

/-- How long an entry is that the parser returns: its two length fields say so, and the file is long
enough. -/
theorem parseEntry_size {data : Bytes} {pos pos' : ℕ} {e : LogEntry}
    (h : parseEntry data pos = some (some (e, pos'))) :
    ∃ keyLen valLen, readBigEndian data (pos + 16 + 1) 2 = some keyLen ∧
      readBigEndian data (pos + 16 + 3) 2 = some valLen ∧
        pos' = pos + 25 + keyLen + valLen ∧ pos' ≤ data.length := by
  unfold parseEntry at h
  split at h
  · simp at h
  obtain ⟨term, -, h⟩ := Option.bind_eq_some_iff.mp h
  obtain ⟨index, -, h⟩ := Option.bind_eq_some_iff.mp h
  split at h
  · simp at h
  obtain ⟨keyLen, hkey, h⟩ := Option.bind_eq_some_iff.mp h
  obtain ⟨valLen, hval, h⟩ := Option.bind_eq_some_iff.mp h
  dsimp only at h
  split at h
  · simp at h
  next hsize =>
  obtain ⟨cmdBytes, -, h⟩ := Option.bind_eq_some_iff.mp h
  obtain ⟨cmd, -, h⟩ := Option.bind_eq_some_iff.mp h
  obtain ⟨checksum, -, h⟩ := Option.bind_eq_some_iff.mp h
  obtain ⟨checkData, -, h⟩ := Option.bind_eq_some_iff.mp h
  split at h
  · simp at h
  simp only [Option.pure_def, Option.some.injEq, Prod.mk.injEq] at h
  exact ⟨keyLen, valLen, hkey, hval, by omega, by omega⟩

/-- Whatever the parser returns is well formed. -/
theorem wellFormed_of_parseEntry {data : Bytes} {pos pos' : ℕ} {e : LogEntry}
    (h : parseEntry data pos = some (some (e, pos'))) : e.WellFormed := by
  obtain ⟨hterm, hindex, hcmd, -⟩ := parseEntry_eq_some h
  refine ⟨hcmd, ?_, ?_⟩
  · calc e.term < 256 ^ 8 := lt_of_readBigEndian hterm
      _ = 2 ^ 64 := by decide
  · calc e.index < 256 ^ 8 := lt_of_readBigEndian hindex
      _ = 2 ^ 64 := by decide

theorem deserializeLoop_isSome (data : Bytes) :
    ∀ (fuel pos : ℕ) (logs : List LogEntry), (deserializeLoop data fuel pos logs).isSome := by
  intro fuel
  induction fuel with
  | zero => intro pos logs; rfl
  | succ fuel ih =>
    intro pos logs
    rw [deserializeLoop]
    split
    · have := parseEntry_isSome data pos
      rcases hp : parseEntry data pos with _ | _ | ⟨e, pos'⟩
      · rw [hp] at this
        exact absurd this (by simp)
      · rfl
      · exact ih pos' (logs ++ [e])
    · rfl

/-- **The log decoder never leaves its input**, whatever the input is. -/
theorem deserializeLogEntry_isSome (data : Bytes) : (deserializeLogEntry data).isSome :=
  deserializeLoop_isSome data _ _ _

/-- Every entry the decoder returns is well formed. -/
theorem wellFormed_of_deserializeLoop {data : Bytes} :
    ∀ {fuel pos : ℕ} {logs out : List LogEntry} {v : ℕ}, (∀ e ∈ logs, e.WellFormed) →
      deserializeLoop data fuel pos logs = some (out, v) → ∀ e ∈ out, e.WellFormed := by
  intro fuel
  induction fuel with
  | zero =>
    intro pos logs out v hlogs h
    rw [deserializeLoop, Option.some.injEq, Prod.mk.injEq] at h
    rw [← h.1]
    exact hlogs
  | succ fuel ih =>
    intro pos logs out v hlogs h
    rw [deserializeLoop] at h
    split at h
    · rcases hp : parseEntry data pos with _ | _ | ⟨e, pos'⟩ <;> rw [hp] at h
      · exact absurd h (by simp)
      · simp only [Option.some.injEq, Prod.mk.injEq] at h
        rw [← h.1]
        exact hlogs
      · refine ih ?_ h
        intro x hx
        rcases List.mem_append.mp hx with hx | hx
        · exact hlogs x hx
        · rw [List.mem_singleton.mp hx]
          exact wellFormed_of_parseEntry hp
    · simp only [Option.some.injEq, Prod.mk.injEq] at h
      rw [← h.1]
      exact hlogs

theorem wellFormed_of_deserializeLogEntry {data : Bytes} {es : List LogEntry} {v : ℕ}
    (h : deserializeLogEntry data = some (es, v)) : ∀ e ∈ es, e.WellFormed :=
  wellFormed_of_deserializeLoop (by simp) h

/-! ## What is read is what would be written -/

/-- **What the parser accepts is what `SerializeLogEntry` writes.** -/
theorem take_of_parseEntry {data : Bytes} {pos pos' : ℕ} {e : LogEntry}
    (h : parseEntry data pos = some (some (e, pos'))) :
    data.take pos' = data.take pos ++ serializeLogEntry e := by
  unfold parseEntry at h
  split at h
  · simp at h
  obtain ⟨term, hterm, h⟩ := Option.bind_eq_some_iff.mp h
  obtain ⟨index, hindex, h⟩ := Option.bind_eq_some_iff.mp h
  split at h
  · simp at h
  obtain ⟨keyLen, hkeyLen, h⟩ := Option.bind_eq_some_iff.mp h
  obtain ⟨valLen, hvalLen, h⟩ := Option.bind_eq_some_iff.mp h
  dsimp only at h
  split at h
  · simp at h
  next hsize =>
  obtain ⟨cmdBytes, hbytes, h⟩ := Option.bind_eq_some_iff.mp h
  obtain ⟨cmd, hcmd, h⟩ := Option.bind_eq_some_iff.mp h
  obtain ⟨checksum, hsum, h⟩ := Option.bind_eq_some_iff.mp h
  obtain ⟨checkData, hdata, h⟩ := Option.bind_eq_some_iff.mp h
  split at h
  · simp at h
  next hcrc =>
  simp only [Option.pure_def, Option.some.injEq, Prod.mk.injEq] at h
  obtain ⟨rfl, rfl⟩ := h
  -- the command takes all of its bytes
  have hlen : cmdBytes.length = 5 + keyLen + valLen := by
    unfold slice at hbytes
    split at hbytes
    · rw [← Option.some.inj hbytes, List.length_take, List.length_drop]
      omega
    · exact absurd hbytes (by simp)
  have hfields : cmd.keyLen = keyLen ∧ cmd.valueLen = valLen := by
    have hkey := readBigEndian_slice hbytes 1 2 (by omega)
    have hval := readBigEndian_slice hbytes 3 2 (by omega)
    rw [hkeyLen] at hkey
    rw [hvalLen] at hval
    unfold deserialize at hcmd
    simp only [hkey, hval, Option.bind_eq_bind, Option.bind_some, Option.bind_eq_some_iff] at hcmd
    obtain ⟨op, -, key, -, value, -, heq⟩ := hcmd
    rw [← Option.some.inj heq]
    exact ⟨rfl, rfl⟩
  have hcommand := take_of_deserialize hcmd
  rw [hfields.1, hfields.2, List.take_of_length_le hlen.le] at hcommand
  have hpayload : checkData = LogEntry.payload ⟨term, index, cmd⟩ := by
    have h8 := take_of_readBigEndian hterm
    have h16 := take_of_readBigEndian hindex
    have hboth : data.take pos ++ checkData =
        data.take pos ++ LogEntry.payload ⟨term, index, cmd⟩ := by
      rw [← take_of_slice hdata, take_of_slice hbytes, h16, h8, hcommand, LogEntry.payload,
        hfields.1, hfields.2]
      simp only [List.append_assoc]
    exact List.append_cancel_left hboth
  rw [take_of_readBigEndian hsum, take_of_slice hdata, not_not.mp hcrc, hpayload,
    serializeLogEntry, List.append_assoc]

/-- The entries that the loop has collected are the bytes that it has read. -/
theorem take_of_deserializeLoop {data : Bytes} {fuel pos v : ℕ} {logs es : List LogEntry}
    (hlogs : data.take pos = serializeLog logs)
    (h : deserializeLoop data fuel pos logs = some (es, v)) : data.take v = serializeLog es := by
  induction fuel generalizing pos logs with
  | zero =>
    rw [deserializeLoop, Option.some.injEq, Prod.mk.injEq] at h
    rw [← h.1, ← h.2, hlogs]
  | succ fuel ih =>
    rw [deserializeLoop] at h
    split at h
    · rcases hp : parseEntry data pos with _ | _ | ⟨e, pos'⟩ <;> rw [hp] at h
      · exact absurd h (by simp)
      · simp only [Option.some.injEq, Prod.mk.injEq] at h
        rw [← h.1, ← h.2, hlogs]
      · refine ih ?_ h
        rw [take_of_parseEntry hp, hlogs, serializeLog_append, serializeLog_singleton]
    · simp only [Option.some.injEq, Prod.mk.injEq] at h
      rw [← h.1, ← h.2, hlogs]

/-- **The valid bytes of a file are those of the entries read from it**, whatever the file is. -/
theorem take_of_deserializeLogEntry {data : Bytes} {es : List LogEntry} {v : ℕ}
    (h : deserializeLogEntry data = some (es, v)) : data.take v = serializeLog es :=
  take_of_deserializeLoop (by simp) h

end RaftConsensus
