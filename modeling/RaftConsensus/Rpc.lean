import RaftConsensus.Log

/-!
# RPC bodies (`rcp.cpp`)

`AppendEntries` carries the sender's entries as length-prefixed blobs, each the byte form
of one entry.  The receiver decodes the blobs one by one and **silently skips** a blob that
does not parse; it does not compare the number of entries it got with the count in the
header.  All 32-bit fields (count, blob length, body length in the frame) are cut to 32
bits by the sender.

* `receiveAppendEntries`: what the receiver sees of a message, from `serialize…` through
  the frame to `deserialize…`.
* `receiveAppendEntries_eq`: for a body below 4 GiB, the header fields arrive and each
  entry arrives as `decodeEntry` says.
* `receiveAppendEntries_of_wellFormed`: a message of well-formed entries arrives as sent.
-/

namespace RaftConsensus

/-- `enum RpcType`. -/
inductive RpcType
  | requestVoteArgs
  | requestVoteReply
  | appendEntriesArgs
  | appendEntriesReply
  deriving DecidableEq, Repr

structure RequestVoteArgs where
  term : ℕ
  candidateId : ℕ
  lastLogIndex : ℕ
  lastLogTerm : ℕ
  deriving DecidableEq, Repr

structure RequestVoteReply where
  term : ℕ
  voteGranted : Bool
  deriving DecidableEq, Repr

structure AppendEntriesArgs where
  term : ℕ
  leaderId : ℕ
  prevLogIndex : ℕ
  prevLogTerm : ℕ
  entries : List LogEntry
  leaderCommit : ℕ
  deriving DecidableEq, Repr

structure AppendEntriesReply where
  term : ℕ
  success : Bool
  deriving DecidableEq, Repr

/-! ## AppendEntries bodies -/

/-- `deserializeRequestVoteArgs`; `none` is a read outside the body, whose length the source does not
look at. -/
def deserializeRequestVoteArgs (body : Bytes) : Option RequestVoteArgs := do
  let term ← readBigEndian body 0 8
  let candidateId ← readBigEndian body 8 8
  let lastLogIndex ← readBigEndian body 16 8
  let lastLogTerm ← readBigEndian body 24 8
  return ⟨term, candidateId, lastLogIndex, lastLogTerm⟩

/-- One entry on the wire: its length (32 bits) and its bytes. -/
def entryBlob (entry : LogEntry) : Bytes :=
  bigEndian 4 (serializeLogEntry entry).length ++ serializeLogEntry entry

/-- `serializeAppendEntriesArgs`. -/
def serializeAppendEntriesArgs (args : AppendEntriesArgs) : Bytes :=
  bigEndian 8 args.term ++ (bigEndian 8 args.leaderId ++ (bigEndian 8 args.prevLogIndex ++
    (bigEndian 8 args.prevLogTerm ++ (bigEndian 8 args.leaderCommit ++
      (bigEndian 4 args.entries.length ++ args.entries.flatMap entryBlob)))))

/-- The loop over the entries in `deserializeAppendEntriesArgs`: `count` turns at most, from
position `p` of the body. -/
def deserializeEntries (body : Bytes) : ℕ → ℕ → List LogEntry → Option (List LogEntry)
  | 0, _, entries => some entries
  | count + 1, p, entries =>
    if p < body.length then
      match readBigEndian body p 4 with
      | none => none
      | some entryLen =>
        if p + 4 + entryLen > body.length then some entries     -- safety check
        else
          match slice body (p + 4) (p + 4 + entryLen) with
          | none => none
          | some entryData =>
            match deserializeLogEntry entryData with
            | none => none
            | some ([], _) => deserializeEntries body count (p + 4 + entryLen) entries
            | some (e :: _, _) =>
              deserializeEntries body count (p + 4 + entryLen) (entries ++ [e])
    else some entries

/-- `deserializeAppendEntriesArgs`; `none` is a read outside the body. -/
def deserializeAppendEntriesArgs (body : Bytes) : Option AppendEntriesArgs := do
  let term ← readBigEndian body 0 8
  let leaderId ← readBigEndian body 8 8
  let prevLogIndex ← readBigEndian body 16 8
  let prevLogTerm ← readBigEndian body 24 8
  let leaderCommit ← readBigEndian body 32 8
  let count ← readBigEndian body 40 4
  let entries ← deserializeEntries body count 44 []
  return ⟨term, leaderId, prevLogIndex, prevLogTerm, entries, leaderCommit⟩

/-- The body that `recvRpc` hands on of a body given to `sendRpc`: the frame holds its length
cut to 32 bits, and the receiver reads that many bytes. -/
def receivedBody (body : Bytes) : Bytes := body.take (body.length % 2 ^ 32)

/-- What the receiver makes of a sent AppendEntries. -/
def receiveAppendEntries (args : AppendEntriesArgs) : Option AppendEntriesArgs :=
  deserializeAppendEntriesArgs (receivedBody (serializeAppendEntriesArgs args))

/-- What becomes of one entry on the wire. -/
def decodeEntry (e : LogEntry) : Option LogEntry :=
  (deserializeLogEntry (serializeLogEntry e)).bind fun r => r.1.head?

theorem receivedBody_eq_self {body : Bytes} (h : body.length < 2 ^ 32) :
    receivedBody body = body := by
  rw [receivedBody, Nat.mod_eq_of_lt h, List.take_length]

theorem decodeEntry_of_wellFormed {e : LogEntry} (he : e.WellFormed) :
    decodeEntry e = some e := by
  have h := @deserializeLogEntry_serializeLog [e] (by simpa using he)
  rw [serializeLog_singleton] at h
  rw [decodeEntry, h]
  rfl

theorem wellFormed_of_decodeEntry {e e' : LogEntry} (h : decodeEntry e = some e') :
    e'.WellFormed := by
  obtain ⟨⟨es, v⟩, hr, hhead⟩ := Option.bind_eq_some_iff.mp h
  exact wellFormed_of_deserializeLogEntry hr e' (List.mem_of_mem_head? hhead)

/-- The loop only adds entries. -/
theorem prefix_of_deserializeLoop {data : Bytes} {fuel pos : ℕ} {logs out : List LogEntry} {v : ℕ}
    (h : deserializeLoop data fuel pos logs = some (out, v)) : logs <+: out := by
  induction fuel generalizing pos logs with
  | zero =>
    rw [deserializeLoop, Option.some.injEq, Prod.mk.injEq] at h
    exact h.1 ▸ List.prefix_rfl
  | succ fuel ih =>
    rw [deserializeLoop] at h
    split at h
    · rcases hp : parseEntry data pos with _ | _ | ⟨x, pos'⟩ <;> rw [hp] at h
      · exact absurd h (by simp)
      · rw [Option.some.injEq, Prod.mk.injEq] at h
        exact h.1 ▸ List.prefix_rfl
      · exact (List.prefix_append _ _).trans (ih h)
    · rw [Option.some.injEq, Prod.mk.injEq] at h
      exact h.1 ▸ List.prefix_rfl

/-- The first entry that a parse returns stands at the start of the data. -/
theorem parseEntry_of_head {data : Bytes} {e : LogEntry} {es : List LogEntry} {v : ℕ}
    (h : deserializeLogEntry data = some (e :: es, v)) :
    ∃ pos', parseEntry data 0 = some (some (e, pos')) := by
  rw [deserializeLogEntry] at h
  rcases hlen : data.length with _ | n
  · rw [hlen, deserializeLoop] at h
    exact absurd h (by simp)
  · rw [hlen, deserializeLoop] at h
    split at h
    · rcases hp : parseEntry data 0 with _ | _ | ⟨x, pos'⟩ <;> rw [hp] at h
      · exact absurd h (by simp)
      · exact absurd h (by simp)
      · have hx := prefix_of_deserializeLoop h
        rw [List.nil_append, List.cons_prefix_cons] at hx
        exact ⟨pos', by rw [hx.1]⟩
    · exact absurd h (by simp)

/-- An entry that arrives stands at the start of the bytes that were sent. -/
theorem parseEntry_of_decodeEntry {e e' : LogEntry} (h : decodeEntry e = some e') :
    ∃ pos', parseEntry (serializeLogEntry e) 0 = some (some (e', pos')) := by
  obtain ⟨⟨es, v⟩, hr, hhead⟩ := Option.bind_eq_some_iff.mp h
  obtain ⟨rest, rfl⟩ : ∃ rest, es = e' :: rest := by
    rcases es with _ | ⟨x, rest⟩
    · exact absurd hhead (by simp)
    · exact ⟨rest, by rw [Option.some.inj hhead]⟩
  exact parseEntry_of_head hr

/-- Term and index of an entry survive even where its key and value do not. -/
theorem decodeEntry_term_index {e e' : LogEntry} (ht : e.term < 2 ^ 64) (hi : e.index < 2 ^ 64)
    (h : decodeEntry e = some e') : e'.term = e.term ∧ e'.index = e.index := by
  obtain ⟨pos', hp⟩ := parseEntry_of_decodeEntry h
  obtain ⟨hterm, hindex, -⟩ := parseEntry_eq_some hp
  obtain ⟨hterm', hindex', -⟩ := read_header [] [] e
  simp only [List.nil_append, List.append_nil, List.length_nil, Nat.zero_add] at hterm' hindex'
  rw [hterm', Nat.mod_eq_of_lt ht] at hterm
  rw [Nat.zero_add, hindex', Nat.mod_eq_of_lt hi] at hindex
  exact ⟨(Option.some.inj hterm).symm, (Option.some.inj hindex).symm⟩

theorem length_entryBlob (e : LogEntry) :
    (entryBlob e).length = 4 + (serializeLogEntry e).length := by
  rw [entryBlob, List.length_append, length_bigEndian]

/-- The blobs of a list of entries, read from where they start. -/
theorem deserializeEntries_flatMap (es : List LogEntry) :
    ∀ (pre : Bytes) (entries : List LogEntry),
      (pre ++ es.flatMap entryBlob).length < 2 ^ 32 →
      deserializeEntries (pre ++ es.flatMap entryBlob) es.length pre.length entries =
        some (entries ++ es.filterMap decodeEntry) := by
  induction es with
  | nil => intro pre entries h; simp [deserializeEntries]
  | cons e es ih =>
    intro pre entries h
    set body := pre ++ (e :: es).flatMap entryBlob with hbody
    have hflat : body = pre ++ (bigEndian 4 (serializeLogEntry e).length ++
        (serializeLogEntry e ++ es.flatMap entryBlob)) := by
      rw [hbody, List.flatMap_cons, entryBlob, List.append_assoc]
    have hassoc : body = (pre ++ entryBlob e) ++ es.flatMap entryBlob := by
      rw [hbody, List.flatMap_cons, List.append_assoc]
    have hlen : body.length = pre.length + 4 + (serializeLogEntry e).length +
        (es.flatMap entryBlob).length := by
      rw [hassoc, List.length_append, List.length_append, length_entryBlob]
      omega
    have hread : readBigEndian body pre.length 4 = some (serializeLogEntry e).length := by
      rw [hflat, readBigEndian_append_right _ _ _ rfl (by simp),
        ofBigEndian_bigEndian_of_lt (by omega)]
    have hslice : slice body (pre.length + 4) (pre.length + 4 + (serializeLogEntry e).length) =
        some (serializeLogEntry e) := by
      rw [hflat, ← List.append_assoc]
      exact slice_append_right _ _ _ (by simp) (by simp)
    have hnext : ∀ entries', deserializeEntries body es.length
        (pre.length + 4 + (serializeLogEntry e).length) entries' =
          some (entries' ++ es.filterMap decodeEntry) := by
      intro entries'
      have := ih (pre ++ entryBlob e) entries' (by rw [← hassoc]; exact h)
      rwa [← hassoc, List.length_append, length_entryBlob, ← Nat.add_assoc] at this
    have hdec := deserializeLogEntry_isSome (serializeLogEntry e)
    rw [List.length_cons, deserializeEntries, if_pos (by omega), hread]
    dsimp only
    rw [if_neg (by omega), hslice]
    dsimp only
    rcases hr : deserializeLogEntry (serializeLogEntry e) with _ | ⟨out, v⟩
    · rw [hr] at hdec
      exact absurd hdec (by simp)
    · rcases out with _ | ⟨x, rest⟩
      · have hnone : decodeEntry e = none := by rw [decodeEntry, hr]; rfl
        rw [List.filterMap_cons_none hnone]
        exact hnext entries
      · have hsome : decodeEntry e = some x := by rw [decodeEntry, hr]; rfl
        rw [List.filterMap_cons_some hsome, List.append_cons]
        exact hnext (entries ++ [x])

/-- The header fields are 64-bit numbers. -/
structure AppendEntriesArgs.Bounded (args : AppendEntriesArgs) : Prop where
  term : args.term < 2 ^ 64
  leaderId : args.leaderId < 2 ^ 64
  prevLogIndex : args.prevLogIndex < 2 ^ 64
  prevLogTerm : args.prevLogTerm < 2 ^ 64
  leaderCommit : args.leaderCommit < 2 ^ 64

theorem length_le_flatMap_entryBlob (es : List LogEntry) :
    es.length ≤ (es.flatMap entryBlob).length := by
  induction es with
  | nil => simp
  | cons e es ih =>
    rw [List.flatMap_cons, List.length_cons, List.length_append, length_entryBlob]
    omega

theorem length_serializeAppendEntriesArgs (args : AppendEntriesArgs) :
    (serializeAppendEntriesArgs args).length = 44 + (args.entries.flatMap entryBlob).length := by
  simp only [serializeAppendEntriesArgs, List.length_append, length_bigEndian]
  omega

/-- The fixed part of a body, field by field. -/
theorem read_appendEntries_header (args : AppendEntriesArgs) :
    readBigEndian (serializeAppendEntriesArgs args) 0 8 = some (args.term % 2 ^ 64) ∧
      readBigEndian (serializeAppendEntriesArgs args) 8 8 = some (args.leaderId % 2 ^ 64) ∧
      readBigEndian (serializeAppendEntriesArgs args) 16 8 = some (args.prevLogIndex % 2 ^ 64) ∧
      readBigEndian (serializeAppendEntriesArgs args) 24 8 = some (args.prevLogTerm % 2 ^ 64) ∧
      readBigEndian (serializeAppendEntriesArgs args) 32 8 = some (args.leaderCommit % 2 ^ 64) ∧
      readBigEndian (serializeAppendEntriesArgs args) 40 4 =
        some (args.entries.length % 2 ^ 32) := by
  have field : ∀ (front back : Bytes) (w v pos : ℕ),
      serializeAppendEntriesArgs args = front ++ (bigEndian w v ++ back) → pos = front.length →
        readBigEndian (serializeAppendEntriesArgs args) pos w = some (v % 256 ^ w) := by
    intro front back w v pos heq hpos
    rw [heq, readBigEndian_append_right front _ back hpos (length_bigEndian w v).symm,
      ofBigEndian_bigEndian]
  -- the fixed part of the body, cut before each of its fields
  set h₁ := bigEndian 8 args.term with hh₁
  set h₂ := h₁ ++ bigEndian 8 args.leaderId with hh₂
  set h₃ := h₂ ++ bigEndian 8 args.prevLogIndex with hh₃
  set h₄ := h₃ ++ bigEndian 8 args.prevLogTerm with hh₄
  set h₅ := h₄ ++ bigEndian 8 args.leaderCommit with hh₅
  set blobs := args.entries.flatMap entryBlob with hblobs
  have e₅ : serializeAppendEntriesArgs args =
      h₅ ++ (bigEndian 4 args.entries.length ++ blobs) := by
    simp only [serializeAppendEntriesArgs, hh₅, hh₄, hh₃, hh₂, hh₁, hblobs, List.append_assoc]
  have e₄ : serializeAppendEntriesArgs args = h₄ ++ (bigEndian 8 args.leaderCommit ++
      (bigEndian 4 args.entries.length ++ blobs)) := by
    rw [e₅, hh₅, List.append_assoc]
  have e₃ : serializeAppendEntriesArgs args = h₃ ++ (bigEndian 8 args.prevLogTerm ++
      (bigEndian 8 args.leaderCommit ++ (bigEndian 4 args.entries.length ++ blobs))) := by
    rw [e₄, hh₄, List.append_assoc]
  have e₂ : serializeAppendEntriesArgs args = h₂ ++ (bigEndian 8 args.prevLogIndex ++
      (bigEndian 8 args.prevLogTerm ++ (bigEndian 8 args.leaderCommit ++
        (bigEndian 4 args.entries.length ++ blobs)))) := by
    rw [e₃, hh₃, List.append_assoc]
  have e₁ : serializeAppendEntriesArgs args = h₁ ++ (bigEndian 8 args.leaderId ++
      (bigEndian 8 args.prevLogIndex ++ (bigEndian 8 args.prevLogTerm ++
        (bigEndian 8 args.leaderCommit ++ (bigEndian 4 args.entries.length ++ blobs))))) := by
    rw [e₂, hh₂, List.append_assoc]
  refine ⟨field [] _ 8 args.term 0 e₁ rfl, field h₁ _ 8 args.leaderId 8 e₁ (by simp [hh₁]),
    field h₂ _ 8 args.prevLogIndex 16 e₂ (by simp [hh₂, hh₁]),
    field h₃ _ 8 args.prevLogTerm 24 e₃ (by simp [hh₃, hh₂, hh₁]),
    field h₄ _ 8 args.leaderCommit 32 e₄ (by simp [hh₄, hh₃, hh₂, hh₁]),
    field h₅ _ 4 args.entries.length 40 e₅ (by simp [hh₅, hh₄, hh₃, hh₂, hh₁])⟩

/-- **A message below 4 GiB.**  The header fields arrive as sent, and the entries are those
that decode, in order. -/
theorem receiveAppendEntries_eq {args : AppendEntriesArgs} (hb : args.Bounded)
    (hlen : (serializeAppendEntriesArgs args).length < 2 ^ 32) :
    receiveAppendEntries args =
      some { args with entries := args.entries.filterMap decodeEntry } := by
  obtain ⟨h1, h2, h3, h4, h5⟩ := hb
  obtain ⟨r₁, r₂, r₃, r₄, r₅, r₆⟩ := read_appendEntries_header args
  have hflat := length_serializeAppendEntriesArgs args
  have hcount := length_le_flatMap_entryBlob args.entries
  rw [Nat.mod_eq_of_lt h1] at r₁
  rw [Nat.mod_eq_of_lt h2] at r₂
  rw [Nat.mod_eq_of_lt h3] at r₃
  rw [Nat.mod_eq_of_lt h4] at r₄
  rw [Nat.mod_eq_of_lt h5] at r₅
  rw [Nat.mod_eq_of_lt (by omega)] at r₆
  have hentries : deserializeEntries (serializeAppendEntriesArgs args) args.entries.length 44 [] =
      some (args.entries.filterMap decodeEntry) := by
    obtain ⟨front, hfront, hbody⟩ : ∃ front : Bytes, front.length = 44 ∧
        serializeAppendEntriesArgs args = front ++ args.entries.flatMap entryBlob := by
      refine ⟨bigEndian 8 args.term ++ (bigEndian 8 args.leaderId ++
        (bigEndian 8 args.prevLogIndex ++ (bigEndian 8 args.prevLogTerm ++
          (bigEndian 8 args.leaderCommit ++ bigEndian 4 args.entries.length)))), by simp, ?_⟩
      simp only [serializeAppendEntriesArgs, List.append_assoc]
    have := deserializeEntries_flatMap args.entries front [] (by rw [← hbody]; exact hlen)
    rwa [← hbody, hfront, List.nil_append] at this
  rw [receiveAppendEntries, receivedBody_eq_self hlen]
  unfold deserializeAppendEntriesArgs
  simp only [r₁, r₂, r₃, r₄, r₅, r₆, hentries, Option.bind_eq_bind, Option.bind_some]
  rfl

/-- Well-formed entries arrive as sent. -/
theorem filterMap_decodeEntry {es : List LogEntry} (h : ∀ e ∈ es, e.WellFormed) :
    es.filterMap decodeEntry = es := by
  conv_rhs => rw [← List.filterMap_some (l := es)]
  exact List.filterMap_congr fun e he => decodeEntry_of_wellFormed (h e he)

/-- **A message of well-formed entries arrives as sent.** -/
theorem receiveAppendEntries_of_wellFormed {args : AppendEntriesArgs} (hb : args.Bounded)
    (hlen : (serializeAppendEntriesArgs args).length < 2 ^ 32)
    (hwf : ∀ e ∈ args.entries, e.WellFormed) : receiveAppendEntries args = some args := by
  rw [receiveAppendEntries_eq hb hlen, filterMap_decodeEntry hwf]

/-- Entries that come out of a body are well formed. -/
theorem wellFormed_of_deserializeEntries {body : Bytes} :
    ∀ {count p : ℕ} {entries out : List LogEntry}, (∀ e ∈ entries, e.WellFormed) →
      deserializeEntries body count p entries = some out → ∀ e ∈ out, e.WellFormed := by
  intro count
  induction count with
  | zero =>
    intro p entries out hentries h
    rw [deserializeEntries, Option.some.injEq] at h
    exact h ▸ hentries
  | succ count ih =>
    intro p entries out hentries h
    rw [deserializeEntries] at h
    split at h
    · split at h
      · exact absurd h (by simp)
      split at h
      · exact Option.some.inj h ▸ hentries
      split at h
      · exact absurd h (by simp)
      split at h
      · exact absurd h (by simp)
      · exact ih hentries h
      · next hdec =>
        refine ih (fun x hx => ?_) h
        rcases List.mem_append.mp hx with hx | hx
        · exact hentries x hx
        · rw [List.mem_singleton.mp hx]
          exact wellFormed_of_deserializeLogEntry hdec _ List.mem_cons_self
    · exact Option.some.inj h ▸ hentries

/-- **Whatever body arrives**, what is decoded of it has a 64-bit term and well-formed entries. -/
theorem wellFormed_of_deserializeAppendEntriesArgs {body : Bytes} {args : AppendEntriesArgs}
    (h : deserializeAppendEntriesArgs body = some args) :
    args.term < 2 ^ 64 ∧ ∀ e ∈ args.entries, e.WellFormed := by
  unfold deserializeAppendEntriesArgs at h
  simp only [Option.bind_eq_bind, Option.bind_eq_some_iff] at h
  obtain ⟨term, hterm, _, -, _, -, _, -, _, -, count, -, entries, hentries, heq⟩ := h
  rw [← Option.some.inj heq]
  refine ⟨?_, wellFormed_of_deserializeEntries (by simp) hentries⟩
  calc term < 256 ^ 8 := lt_of_readBigEndian hterm
    _ = 2 ^ 64 := by decide

/-- Reading a shorter copy of a string gives what the string holds. -/
theorem readBigEndian_of_take {data : Bytes} {k pos w v : ℕ}
    (h : readBigEndian (data.take k) pos w = some v) : readBigEndian data pos w = some v := by
  obtain ⟨mid, hmid, rfl⟩ := Option.map_eq_some_iff.mp h
  unfold slice at hmid
  split at hmid
  · next hle =>
    rw [List.length_take] at hle
    rw [readBigEndian_eq_some _ (by omega), ← Option.some.inj hmid, List.drop_take,
      List.take_take]
    congr 2
    rw [Nat.add_sub_cancel_left, min_eq_left (by omega)]
  · exact absurd hmid (by simp)

/-- **The header arrives**, cut to 64 bits, whatever becomes of the entries. -/
theorem receiveAppendEntries_header {args args' : AppendEntriesArgs}
    (h : receiveAppendEntries args = some args') :
    args'.term = args.term % 2 ^ 64 ∧ args'.leaderId = args.leaderId % 2 ^ 64 ∧
      args'.prevLogIndex = args.prevLogIndex % 2 ^ 64 ∧
      args'.prevLogTerm = args.prevLogTerm % 2 ^ 64 ∧
      args'.leaderCommit = args.leaderCommit % 2 ^ 64 := by
  obtain ⟨r₁, r₂, r₃, r₄, r₅, -⟩ := read_appendEntries_header args
  have arrives : ∀ {pos v v' : ℕ},
      readBigEndian (receivedBody (serializeAppendEntriesArgs args)) pos 8 = some v' →
        readBigEndian (serializeAppendEntriesArgs args) pos 8 = some v → v' = v := by
    intro pos v v' hv' hv
    rw [readBigEndian_of_take hv', Option.some.injEq] at hv
    exact hv
  unfold receiveAppendEntries deserializeAppendEntriesArgs at h
  simp only [Option.bind_eq_bind, Option.bind_eq_some_iff] at h
  obtain ⟨_, h₁, _, h₂, _, h₃, _, h₄, _, h₅, _, -, _, -, heq⟩ := h
  rw [← Option.some.inj heq]
  exact ⟨arrives h₁ r₁, arrives h₂ r₂, arrives h₃ r₃, arrives h₄ r₄, arrives h₅ r₅⟩

theorem receiveAppendEntries_term {args args' : AppendEntriesArgs}
    (h : receiveAppendEntries args = some args') : args'.term = args.term % 2 ^ 64 :=
  (receiveAppendEntries_header h).1

end RaftConsensus
