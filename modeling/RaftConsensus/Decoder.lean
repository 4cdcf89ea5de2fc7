import RaftConsensus.Rpc
import RaftConsensus.Library.PrefixCode

/-!
# What the decoders accept

The bytes of well-formed entries are the words of a prefix code (`logCode`): the two length
fields say where an entry ends.  So a log file, whatever happened to it, has one longest run of
entries at its start, and `DeserializeLogEntry` returns it (`deserializeLogEntry_eq_some`).
Every statement about damaged files rests on this.

* `decoder_accepts_encodings`: on any input the decoder stops, stays inside, and returns the
  longest run with its length.
* `codec_round_trip`: what is sent or stored is what is read back.
-/

namespace RaftConsensus

/-! ## The code of the log -/

/-- The entries of a log file. -/
def logCode : PrefixCode LogEntry UInt8 where
  Valid := LogEntry.WellFormed
  word := serializeLogEntry
  word_ne_nil := by
    intro e _ hnil
    have hlen := length_serializeLogEntry e
    rw [hnil, List.length_nil] at hlen
    omega
  word_unique := by
    rintro a b l ha hb ⟨ra, rfl⟩ ⟨rb, heq⟩
    have hpa := parseEntry_serializeLogEntry [] ra ha
    have hpb := parseEntry_serializeLogEntry [] rb hb
    rw [heq, hpa] at hpb
    exact (Prod.mk.inj (Option.some.inj (Option.some.inj hpb))).1

@[simp] theorem logCode_encode (es : List LogEntry) : logCode.encode es = serializeLog es := rfl

/-- `DeserializeLogEntry` breaks off where no entry stands. -/
theorem parseEntry_eq_none {pre rest : Bytes} :
    parseEntry (pre ++ rest) pre.length = some none ↔
      ∀ e : LogEntry, e.WellFormed → ¬ serializeLogEntry e <+: rest := by
  constructor
  · rintro h e he ⟨post, rfl⟩
    rw [parseEntry_serializeLogEntry pre post he] at h
    exact absurd h (by simp)
  · intro h
    have hsome := parseEntry_isSome (pre ++ rest) pre.length
    rcases hp : parseEntry (pre ++ rest) pre.length with _ | _ | ⟨e, pos'⟩
    · rw [hp] at hsome
      exact absurd hsome (by simp)
    · rfl
    · refine absurd ?_ (h e (wellFormed_of_parseEntry hp))
      have htake := take_of_parseEntry hp
      rw [List.take_left] at htake
      have hpre : pre ++ serializeLogEntry e <+: pre ++ rest := htake ▸ List.take_prefix _ _
      exact (List.prefix_append_right_inj pre).mp hpre

/-- A file that begins with the bytes of some entries, behind which there is no other one: the loop
stops there, and one turn for each entry is fuel enough. -/
theorem deserializeLoop_of_stuck {es : List LogEntry} (hes : ∀ e ∈ es, e.WellFormed) {rest : Bytes}
    (hrest : ∀ e : LogEntry, e.WellFormed → ¬ serializeLogEntry e <+: rest) {fuel : ℕ}
    (hfuel : es.length ≤ fuel) :
    deserializeLoop (serializeLog es ++ rest) fuel 0 [] = some (es, (serializeLog es).length) := by
  obtain ⟨n, rfl⟩ := Nat.exists_eq_add_of_le hfuel
  have h := deserializeLoop_serializeLog rest hes n [] []
  simp only [List.nil_append, List.length_nil, Nat.zero_add] at h
  rw [h]
  cases n with
  | zero => rfl
  | succ n =>
    rw [deserializeLoop]
    split
    · rw [parseEntry_eq_none.mpr hrest]
    · rfl

theorem deserializeLoop_of_isLongest {es : List LogEntry} {data : Bytes}
    (h : logCode.IsLongest es data) {fuel : ℕ} (hfuel : data.length ≤ fuel) :
    deserializeLoop data fuel 0 [] = some (es, (serializeLog es).length) := by
  obtain ⟨rest, rfl, hrest⟩ := h.exists_rest
  refine deserializeLoop_of_stuck h.valid hrest ?_
  have hle := length_le_serializeLog es
  rw [logCode_encode, List.length_append] at hfuel
  omega

/-- **The decoder returns the longest run of entries**, and nothing else. -/
theorem deserializeLogEntry_eq_some {data : Bytes} {es : List LogEntry} {v : ℕ} :
    deserializeLogEntry data = some (es, v) ↔
      logCode.IsLongest es data ∧ v = (serializeLog es).length := by
  have hread : ∀ {xs}, logCode.IsLongest xs data →
      deserializeLogEntry data = some (xs, (serializeLog xs).length) := fun h =>
    deserializeLoop_of_isLongest h le_rfl
  constructor
  · intro h
    obtain ⟨xs, hxs⟩ := logCode.exists_isLongest data
    rw [hread hxs, Option.some.injEq, Prod.mk.injEq] at h
    obtain ⟨rfl, rfl⟩ := h
    exact ⟨hxs, rfl⟩
  · rintro ⟨h, rfl⟩
    exact hread h

/-- **The log decoder accepts exactly the encodings.**  On any input, and with any fuel from its length
on, it returns entries whose bytes are the first `v` of the input; behind them no entry follows,
and the input cut there is read in the same way. -/
theorem decoder_accepts_encodings (data : Bytes) :
    ∃ es v, deserializeLogEntry data = some (es, v) ∧
      (∀ fuel, data.length ≤ fuel → deserializeLoop data fuel 0 [] = some (es, v)) ∧
      v ≤ data.length ∧ serializeLog es = data.take v ∧ (∀ e ∈ es, e.WellFormed) ∧
      (∀ e : LogEntry, e.WellFormed → ¬ serializeLogEntry e <+: data.drop v) ∧
      deserializeLogEntry (data.take v) = some (es, v) := by
  obtain ⟨es, hes⟩ := logCode.exists_isLongest data
  obtain ⟨rest, rfl, hrest⟩ := hes.exists_rest
  have hread := deserializeLogEntry_eq_some.mpr ⟨hes, rfl⟩
  refine ⟨es, _, hread, fun fuel => deserializeLoop_of_isLongest hes, ?_, ?_, hes.valid, ?_, ?_⟩
  · rw [logCode_encode, List.length_append]
    omega
  · rw [logCode_encode, List.take_left]
  · rw [logCode_encode, List.drop_left]
    exact hrest
  · rw [logCode_encode, List.take_left]
    exact deserializeLogEntry_serializeLog hes.valid

/-! ## Round trips -/

/-- **What is sent or stored is what is read back**: a message with well-formed entries, whatever bytes
their keys and values hold, and a log file of such entries, to its last byte. -/
theorem codec_round_trip {args : AppendEntriesArgs} (hb : args.Bounded)
    (hwf : ∀ e ∈ args.entries, e.WellFormed)
    (hlen : (serializeAppendEntriesArgs args).length < 2 ^ 32) {es : List LogEntry}
    (hes : ∀ e ∈ es, e.WellFormed) :
    deserializeAppendEntriesArgs (serializeAppendEntriesArgs args) = some args ∧
      deserializeLogEntry (es.flatMap serializeLogEntry) =
        some (es, (es.flatMap serializeLogEntry).length) := by
  have hmessage := receiveAppendEntries_of_wellFormed hb hlen hwf
  rw [receiveAppendEntries, receivedBody_eq_self hlen] at hmessage
  exact ⟨hmessage, deserializeLogEntry_serializeLog hes⟩

/-- An entry with a value of 25 bytes that are themselves the bytes of an entry. -/
def nestedEntry : LogEntry := ⟨7, 42, ⟨1, 1, 25, [107], serializeLogEntry ⟨1, 1, ⟨3, 0, 0, [], []⟩⟩⟩⟩

theorem wellFormed_nestedEntry : nestedEntry.WellFormed where
  command := ⟨rfl, by decide +kernel, by decide, by decide +kernel⟩
  term_lt := by decide
  index_lt := by decide

theorem codec_round_trip_nested :
    deserializeAppendEntriesArgs (serializeAppendEntriesArgs ⟨7, 1, 41, 6, [nestedEntry], 40⟩) =
        some ⟨7, 1, 41, 6, [nestedEntry], 40⟩ ∧
      deserializeLogEntry ([nestedEntry, nestedEntry].flatMap serializeLogEntry) =
        some ([nestedEntry, nestedEntry],
          ([nestedEntry, nestedEntry].flatMap serializeLogEntry).length) := by
  have hmem : ∀ e ∈ [nestedEntry], e.WellFormed := by
    intro e he
    rw [List.mem_singleton.mp he]
    exact wellFormed_nestedEntry
  have htwice : ∀ e ∈ [nestedEntry, nestedEntry], e.WellFormed := by
    intro e he
    obtain rfl : e = nestedEntry := by simpa using he
    exact wellFormed_nestedEntry
  exact codec_round_trip ⟨by decide, by decide, by decide, by decide, by decide⟩ hmem
    (by decide +kernel) htwice

end RaftConsensus
