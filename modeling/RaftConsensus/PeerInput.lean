import RaftConsensus.Redelivery
import RaftConsensus.Node

/-!
# What a peer can make the receiver do

The peer port takes a body from anybody.  `handlePeerConnection` decodes it and runs the
handler; in the model an access outside the body or outside the log is `none`.

The decoders trust the sender.  `deserializeRequestVoteArgs` does not ask how long the body
is, `deserializeAppendEntriesArgs` checks that an entry ends inside the body but not that its
length field does, and `handleAppendEntries` takes an entry with index `0` for one of the
log.  `Frames` is the grammar of the bodies that are read inside, and `Harmless` adds what
the handler needs: `handlePeerConnection_isSome_iff`.
-/

namespace RaftConsensus

/-- `handlePeerConnection` after `recvRpc`: the server, and what is sent back. -/
def Server.handlePeerConnection (s : Server) : RpcType → Bytes → Option (Server × List Output)
  | .requestVoteArgs, body =>
    (deserializeRequestVoteArgs body).map fun args =>
      let r := s.handleRequestVote args
      (r.2, [.requestVoteReply r.1])
  | .appendEntriesArgs, body =>
    (deserializeAppendEntriesArgs body).bind fun args =>
      (s.handleAppendEntries args).map fun r => (r.2, [.appendEntriesReply r.1])
  | _, _ => some (s, [])

/-! ## The grammar of the entries -/

/-- What follows the header of a body: entries with their lengths, `count` of them at most.  The body
may end before that, and an entry may run past its end, which is not read then; but no length
field may. -/
inductive Frames : ℕ → Bytes → List Bytes → Prop
  | done (rest : Bytes) : Frames 0 rest []
  | stop (count : ℕ) : Frames (count + 1) [] []
  | cut {count n : ℕ} {rest : Bytes} :
      n < 2 ^ 32 → rest.length < n → Frames (count + 1) (bigEndian 4 n ++ rest) []
  | entry {count : ℕ} {blob rest : Bytes} {blobs : List Bytes} :
      blob.length < 2 ^ 32 → Frames count rest blobs →
        Frames (count + 1) (bigEndian 4 blob.length ++ (blob ++ rest)) (blob :: blobs)

/-- The entry that the receiver takes out of a blob. -/
def blobEntry (blob : Bytes) : Option LogEntry :=
  (deserializeLogEntry blob).bind fun r => r.1.head?

/-- **It is the entry whose bytes the blob begins with.** -/
theorem blobEntry_eq_some {blob : Bytes} {e : LogEntry} :
    blobEntry blob = some e ↔ e.WellFormed ∧ serializeLogEntry e <+: blob := by
  constructor
  · intro h
    obtain ⟨⟨es, v⟩, hr, hhead⟩ := Option.bind_eq_some_iff.mp h
    cases es with
    | nil => exact absurd hhead (by simp)
    | cons x es =>
      obtain rfl := Option.some.inj hhead
      obtain ⟨pos', hp⟩ := parseEntry_of_head hr
      have htake := take_of_parseEntry hp
      rw [List.take_zero, List.nil_append] at htake
      exact ⟨wellFormed_of_parseEntry hp, htake ▸ List.take_prefix _ _⟩
  · rintro ⟨hwf, post, rfl⟩
    have hparse := parseEntry_serializeLogEntry [] post hwf
    simp only [List.nil_append, List.length_nil, Nat.zero_add] at hparse
    have hsome := deserializeLogEntry_isSome (serializeLogEntry e ++ post)
    obtain ⟨⟨es, v⟩, hr⟩ := Option.isSome_iff_exists.mp hsome
    rw [blobEntry, hr]
    -- the loop starts with this entry
    have hlen : (serializeLogEntry e ++ post).length =
        24 + e.command.key.length + e.command.value.length + post.length + 1 := by
      rw [List.length_append, length_serializeLogEntry]
      omega
    rw [deserializeLogEntry, hlen, deserializeLoop, if_pos (by omega), hparse] at hr
    obtain ⟨rest, rfl⟩ := prefix_of_deserializeLoop hr
    rfl

/-- A string is what stands before a position, and what stands after it. -/
theorem drop_of_take {data x : Bytes} {i j : ℕ} (hj : j ≤ data.length) (hij : i ≤ j)
    (h : data.take j = data.take i ++ x) : data.drop i = x ++ data.drop j := by
  have hlen : (data.take i).length = i := List.length_take_of_le (hij.trans hj)
  conv_lhs => rw [← List.take_append_drop j data, h, List.append_assoc]
  rw [List.drop_append_of_le_length hlen.ge, List.drop_of_length_le hlen.le, List.nil_append]

theorem le_of_readBigEndian {data : Bytes} {pos w v : ℕ} (h : readBigEndian data pos w = some v) :
    pos + w ≤ data.length := by
  obtain ⟨mid, hmid, -⟩ := Option.map_eq_some_iff.mp h
  unfold slice at hmid
  split at hmid
  · next hle => exact hle.2
  · exact absurd hmid (by simp)

/-- What one turn of the loop does with a blob. -/
theorem deserializeEntries_blob {body blob : Bytes} {count p n : ℕ} {entries : List LogEntry}
    (hp : p < body.length) (hread : readBigEndian body p 4 = some n)
    (hle : ¬ p + 4 + n > body.length) (hslice : slice body (p + 4) (p + 4 + n) = some blob) :
    deserializeEntries body (count + 1) p entries =
      deserializeEntries body count (p + 4 + n) (entries ++ (blobEntry blob).toList) := by
  rw [deserializeEntries, if_pos hp, hread]
  dsimp only
  rw [if_neg hle, hslice]
  dsimp only
  have hsome := deserializeLogEntry_isSome blob
  rcases hdec : deserializeLogEntry blob with _ | ⟨_ | ⟨e, es⟩, v⟩
  · rw [hdec] at hsome
    exact absurd hsome (by simp)
  · rw [blobEntry, hdec]
    simp
  · rw [blobEntry, hdec]
    simp

theorem filterMap_blobEntry_cons (blob : Bytes) (blobs : List Bytes) :
    (blob :: blobs).filterMap blobEntry = (blobEntry blob).toList ++ blobs.filterMap blobEntry := by
  rcases h : blobEntry blob with _ | e
  · rw [List.filterMap_cons_none h]
    rfl
  · rw [List.filterMap_cons_some h]
    rfl

/-- What the loop has read is in the grammar. -/
theorem frames_of_deserializeEntries {body : Bytes} {count p : ℕ} {entries out : List LogEntry}
    (h : deserializeEntries body count p entries = some out) :
    ∃ blobs, Frames count (body.drop p) blobs ∧ out = entries ++ blobs.filterMap blobEntry := by
  induction count generalizing p entries with
  | zero =>
    rw [deserializeEntries, Option.some.injEq] at h
    exact ⟨[], .done _, h ▸ (List.append_nil _).symm⟩
  | succ count ih =>
    by_cases hp : p < body.length
    · rcases hread : readBigEndian body p 4 with _ | n
      · rw [deserializeEntries, if_pos hp, hread] at h
        exact absurd h (by simp)
      have hle := le_of_readBigEndian hread
      have hn : n < 2 ^ 32 := by
        have := lt_of_readBigEndian hread
        omega
      have hdrop := drop_of_take hle (by omega) (take_of_readBigEndian hread)
      by_cases hlong : p + 4 + n > body.length
      · -- the entry is cut
        rw [deserializeEntries, if_pos hp, hread] at h
        dsimp only at h
        rw [if_pos hlong, Option.some.injEq] at h
        refine ⟨[], ?_, by rw [← h]; exact (List.append_nil _).symm⟩
        rw [hdrop]
        exact .cut hn (by rw [List.length_drop]; omega)
      · have hslice := slice_eq_some body (i := p + 4) (j := p + 4 + n) (by omega) (by omega)
        rw [Nat.add_sub_cancel_left] at hslice
        set blob := (body.drop (p + 4)).take n with hblob
        have hlen : blob.length = n := by
          rw [hblob, List.length_take, List.length_drop]
          omega
        rw [deserializeEntries_blob hp hread hlong hslice] at h
        obtain ⟨blobs, hframes, rfl⟩ := ih h
        refine ⟨blob :: blobs, ?_, by rw [filterMap_blobEntry_cons, List.append_assoc]⟩
        rw [hdrop, drop_of_take (by omega) (by omega) (take_of_slice hslice), ← hlen]
        exact .entry (by omega) (by rw [hlen]; exact hframes)
    · rw [deserializeEntries, if_neg hp, Option.some.injEq] at h
      refine ⟨[], ?_, by rw [← h]; exact (List.append_nil _).symm⟩
      rw [List.drop_of_length_le (by omega)]
      exact .stop count

/-- A length field at a position, and what follows it. -/
theorem readBigEndian_of_drop {body tail : Bytes} {p n : ℕ} (hn : n < 2 ^ 32)
    (h : body.drop p = bigEndian 4 n ++ tail) : readBigEndian body p 4 = some n ∧
      body = body.take p ++ (bigEndian 4 n ++ tail) ∧ (body.take p).length = p := by
  have hlt : p < body.length := by
    by_contra hge
    rw [List.drop_of_length_le (by omega)] at h
    exact absurd h (by simp [bigEndian])
  have heq : body = body.take p ++ (bigEndian 4 n ++ tail) := by rw [← h, List.take_append_drop]
  have hlen : (body.take p).length = p := List.length_take_of_le hlt.le
  refine ⟨?_, heq, hlen⟩
  rw [heq, readBigEndian_append_right _ _ _ hlen.symm (by simp),
    ofBigEndian_bigEndian_of_lt (by omega)]

/-- The loop reads what is in the grammar. -/
theorem deserializeEntries_of_frames {body : Bytes} {count p : ℕ} {blobs : List Bytes}
    (h : Frames count (body.drop p) blobs) (entries : List LogEntry) :
    deserializeEntries body count p entries = some (entries ++ blobs.filterMap blobEntry) := by
  generalize hrest : body.drop p = rest at h
  induction h generalizing p entries with
  | done => rw [deserializeEntries, List.filterMap_nil, List.append_nil]
  | stop =>
    have hge : ¬ p < body.length := by
      rw [List.drop_eq_nil_iff] at hrest
      omega
    rw [deserializeEntries, if_neg hge, List.filterMap_nil, List.append_nil]
  | @cut _ n tail hn hshort =>
    obtain ⟨hread, heq, hlen⟩ := readBigEndian_of_drop hn hrest
    have htotal : body.length = p + (4 + tail.length) := by
      rw [heq, List.length_append, hlen, List.length_append, length_bigEndian]
    rw [deserializeEntries, if_pos (by omega), hread]
    dsimp only
    rw [if_pos (by omega), List.filterMap_nil, List.append_nil]
  | @entry _ blob tail blobs hblob hframes ih =>
    obtain ⟨hread, heq, hlen⟩ := readBigEndian_of_drop hblob hrest
    have htotal : body.length = p + (4 + (blob.length + tail.length)) := by
      rw [heq, List.length_append, hlen, List.length_append, length_bigEndian,
        List.length_append]
    have hslice : slice body (p + 4) (p + 4 + blob.length) = some blob := by
      rw [heq, ← List.append_assoc (body.take p)]
      exact slice_append_right _ _ _ (by simp; omega) (by simp; omega)
    have hdrop : body.drop (p + 4 + blob.length) = tail := by
      rw [Nat.add_assoc, ← List.drop_drop, hrest, ← List.append_assoc]
      exact List.drop_left' (by simp)
    rw [deserializeEntries_blob (by omega) hread (by omega) hslice, ih _ hdrop,
      filterMap_blobEntry_cons, List.append_assoc]

/-- **The loop stays inside the body if and only if the body is in the grammar**, and then the
entries are those of the blobs. -/
theorem deserializeEntries_eq_some {body : Bytes} {count p : ℕ} {entries out : List LogEntry} :
    deserializeEntries body count p entries = some out ↔
      ∃ blobs, Frames count (body.drop p) blobs ∧ out = entries ++ blobs.filterMap blobEntry := by
  constructor
  · exact frames_of_deserializeEntries
  · rintro ⟨blobs, hframes, rfl⟩
    exact deserializeEntries_of_frames hframes entries

/-! ## The handler -/

/-- The number in the `w` bytes at `pos` of a body. -/
def field (body : Bytes) (pos w : ℕ) : ℕ := ofBigEndian ((body.drop pos).take w)

/-- **The bodies that do no harm.**  A RequestVote has its 32 bytes.  An AppendEntries has its header
of 44 bytes, and after it the entries that the header counts, in the grammar.  Its term is old, or
the log lacks the entry before the new ones, or no entry in it has index `0`. -/
def Harmless (s : Server) : RpcType → Bytes → Prop
  | .requestVoteArgs, body => 32 ≤ body.length
  | .appendEntriesArgs, body =>
    44 ≤ body.length ∧ ∃ blobs, Frames (field body 40 4) (body.drop 44) blobs ∧
      (field body 0 8 < s.metadata.currentTerm ∨
        (field body 16 8 ≠ 0 ∧
          s.logEntries[field body 16 8 - 1]?.map LogEntry.term ≠ some (field body 24 8)) ∨
        ∀ blob ∈ blobs, ∀ e : LogEntry, e.WellFormed → serializeLogEntry e <+: blob → e.index ≠ 0)
  | _, _ => True

theorem readBigEndian_field (body : Bytes) (pos w : ℕ) (h : pos + w ≤ body.length) :
    readBigEndian body pos w = some (field body pos w) := readBigEndian_eq_some body h

/-- `deserializeRequestVoteArgs` stays inside a body of 32 bytes or more, and inside no other. -/
theorem deserializeRequestVoteArgs_isSome (body : Bytes) :
    (deserializeRequestVoteArgs body).isSome ↔ 32 ≤ body.length := by
  constructor
  · intro h
    obtain ⟨args, h⟩ := Option.isSome_iff_exists.mp h
    unfold deserializeRequestVoteArgs at h
    simp only [Option.bind_eq_bind, Option.bind_eq_some_iff] at h
    obtain ⟨_, -, _, -, _, -, _, hlast, -⟩ := h
    exact le_of_readBigEndian hlast
  · intro h
    unfold deserializeRequestVoteArgs
    rw [readBigEndian_field body 0 8 (by omega), readBigEndian_field body 8 8 (by omega),
      readBigEndian_field body 16 8 (by omega), readBigEndian_field body 24 8 (by omega)]
    exact rfl

/-- What `deserializeAppendEntriesArgs` makes of a body. -/
theorem deserializeAppendEntriesArgs_eq_some {body : Bytes} {args : AppendEntriesArgs} :
    deserializeAppendEntriesArgs body = some args ↔
      44 ≤ body.length ∧ ∃ blobs, Frames (field body 40 4) (body.drop 44) blobs ∧
        args = ⟨field body 0 8, field body 8 8, field body 16 8, field body 24 8,
          blobs.filterMap blobEntry, field body 32 8⟩ := by
  by_cases hlen : 44 ≤ body.length
  · unfold deserializeAppendEntriesArgs
    rw [readBigEndian_field body 0 8 (by omega), readBigEndian_field body 8 8 (by omega),
      readBigEndian_field body 16 8 (by omega), readBigEndian_field body 24 8 (by omega),
      readBigEndian_field body 32 8 (by omega), readBigEndian_field body 40 4 (by omega)]
    simp only [Option.bind_eq_bind, Option.bind_some, Option.bind_eq_some_iff,
      deserializeEntries_eq_some, List.nil_append, Option.pure_def, Option.some.injEq]
    constructor
    · rintro ⟨entries, ⟨blobs, hframes, rfl⟩, rfl⟩
      exact ⟨hlen, blobs, hframes, rfl⟩
    · rintro ⟨-, blobs, hframes, rfl⟩
      exact ⟨_, ⟨blobs, hframes, rfl⟩, rfl⟩
  · constructor
    · intro h
      unfold deserializeAppendEntriesArgs at h
      simp only [Option.bind_eq_bind, Option.bind_eq_some_iff] at h
      obtain ⟨_, -, _, -, _, -, _, -, _, -, _, hcount, -⟩ := h
      exact absurd (le_of_readBigEndian hcount) hlen
    · rintro ⟨h, -⟩
      exact absurd h hlen

/-- The loop of the handler stays inside the log if and only if no entry has index `0`. -/
theorem Server.reconcile_isSome_iff {entries log : List LogEntry} {b : Bool} :
    (reconcile log b entries).isSome ↔ ∀ e ∈ entries, e.index ≠ 0 := by
  refine ⟨fun h => ?_, fun h => reconcile_isSome h log b⟩
  induction entries generalizing log b with
  | nil => simp
  | cons x entries ih =>
    rw [reconcile] at h
    intro e he
    by_cases hzero : x.index = 0
    · rw [if_pos (by omega), if_pos hzero] at h
      exact absurd h (by simp)
    · rcases List.mem_cons.mp he with rfl | he
      · exact hzero
      · by_cases hle : x.index ≤ log.length
        · rw [if_pos hle, if_neg hzero] at h
          split at h
          · exact ih h e he
          · exact ih h e he
        · rw [if_neg hle] at h
          exact ih h e he

/-- **When `handleAppendEntries` stays inside the log.** -/
theorem Server.handleAppendEntries_isSome_iff (s : Server) (args : AppendEntriesArgs) :
    (s.handleAppendEntries args).isSome ↔
      args.term < s.metadata.currentTerm ∨ ¬ s.replica.HasPrevious args ∨
        ∀ e ∈ args.entries, e.index ≠ 0 := by
  unfold handleAppendEntries
  by_cases hterm : args.term < s.metadata.currentTerm
  · rw [if_pos hterm]
    exact ⟨fun _ => Or.inl hterm, fun _ => rfl⟩
  rw [if_neg hterm]
  dsimp only
  rw [prevMatches_recognizeLeader]
  by_cases hprev : s.prevMatches args = true
  · have hhas := (s.prevMatches_iff args).mp hprev
    rw [if_pos hprev, Option.isSome_map]
    have hstore : ((s.recognizeLeader args).storeEntries args.entries).isSome ↔
        (reconcile (s.recognizeLeader args).logEntries false args.entries).isSome := by
      unfold storeEntries
      rcases reconcile (s.recognizeLeader args).logEntries false args.entries with _ | ⟨log, _ | _⟩
      · rfl
      · exact ⟨fun _ => rfl, fun _ => rfl⟩
      · exact ⟨fun _ => rfl, fun _ => rfl⟩
    rw [hstore, reconcile_isSome_iff]
    constructor
    · exact fun h => Or.inr (Or.inr h)
    · rintro (h | h | h)
      · exact absurd h hterm
      · exact absurd hhas h
      · exact h
  · have hhas : ¬ s.replica.HasPrevious args := fun h => hprev ((s.prevMatches_iff args).mpr h)
    rw [if_neg hprev]
    exact ⟨fun _ => Or.inr (Or.inl hhas), fun _ => rfl⟩

/-- **When a peer's message does no harm.**  Decoding it and handling it stays inside the body and
inside the log if and only if the body is one of the harmless ones. -/
theorem handlePeerConnection_isSome_iff (s : Server) (type : RpcType) (body : Bytes) :
    (s.handlePeerConnection type body).isSome ↔ Harmless s type body := by
  cases type with
  | requestVoteArgs =>
    rw [Server.handlePeerConnection, Option.isSome_map, deserializeRequestVoteArgs_isSome]
    rfl
  | requestVoteReply => exact ⟨fun _ => trivial, fun _ => rfl⟩
  | appendEntriesReply => exact ⟨fun _ => trivial, fun _ => rfl⟩
  | appendEntriesArgs =>
    have hprev : ∀ args : AppendEntriesArgs, args.prevLogIndex = field body 16 8 →
        args.prevLogTerm = field body 24 8 → (¬ s.replica.HasPrevious args ↔
          field body 16 8 ≠ 0 ∧ s.logEntries[field body 16 8 - 1]?.map LogEntry.term ≠
            some (field body 24 8)) := by
      intro args hindex hterm
      rw [Replica.HasPrevious, hindex, hterm, not_or]
      rfl
    constructor
    · intro h
      obtain ⟨r, h⟩ := Option.isSome_iff_exists.mp h
      obtain ⟨args, hargs, h⟩ := Option.bind_eq_some_iff.mp h
      obtain ⟨r', hr', -⟩ := Option.map_eq_some_iff.mp h
      obtain ⟨hlen, blobs, hframes, heq⟩ := deserializeAppendEntriesArgs_eq_some.mp hargs
      refine ⟨hlen, blobs, hframes, ?_⟩
      rcases (s.handleAppendEntries_isSome_iff args).mp (by rw [hr']; rfl) with hstale | hno | hindex
      · exact Or.inl (by rw [heq] at hstale; exact hstale)
      · exact Or.inr (Or.inl ((hprev args (by rw [heq]) (by rw [heq])).mp hno))
      · refine Or.inr (Or.inr fun blob hblob e hwf hpre => hindex e ?_)
        rw [heq]
        exact List.mem_filterMap.mpr ⟨blob, hblob, blobEntry_eq_some.mpr ⟨hwf, hpre⟩⟩
    · rintro ⟨hlen, blobs, hframes, hcond⟩
      have hargs := deserializeAppendEntriesArgs_eq_some.mpr ⟨hlen, blobs, hframes, rfl⟩
      rw [Server.handlePeerConnection, hargs, Option.bind_some, Option.isSome_map,
        Server.handleAppendEntries_isSome_iff]
      rcases hcond with hstale | hno | hindex
      · exact Or.inl hstale
      · exact Or.inr (Or.inl ((hprev _ rfl rfl).mpr hno))
      · refine Or.inr (Or.inr fun e he => ?_)
        obtain ⟨blob, hblob, he⟩ := List.mem_filterMap.mp he
        obtain ⟨hwf, hpre⟩ := blobEntry_eq_some.mp he
        exact hindex blob hblob e hwf hpre

/-- A request with an intact entry of index `0`. -/
def zeroIndexArgs : AppendEntriesArgs := ⟨1, 2, 0, 0, [⟨1, 0, .noop⟩], 0⟩

/-- **Three bodies that a fresh server does not survive**: an empty RequestVote, an AppendEntries that
ends inside the length of its only entry, and one with an entry of index `0`. -/
theorem hostile_bodies :
    (Server.new 1 [2]).handlePeerConnection .requestVoteArgs [] = none ∧
      (Server.new 1 [2]).handlePeerConnection .appendEntriesArgs
          (List.replicate 43 0 ++ [1, 0]) = none ∧
        (Server.new 1 [2]).handlePeerConnection .appendEntriesArgs
            (serializeAppendEntriesArgs zeroIndexArgs) = none ∧
          ¬ ∀ (s : Server) (type : RpcType) (body : Bytes),
            (s.handlePeerConnection type body).isSome := by
  have hempty : (Server.new 1 [2]).handlePeerConnection .requestVoteArgs [] = none := rfl
  refine ⟨hempty, ?_, ?_, fun h => ?_⟩
  · have hcut : deserializeAppendEntriesArgs (List.replicate 43 0 ++ [1, 0]) = none := by decide
    rw [Server.handlePeerConnection, hcut, Option.bind_none]
  · have hlen : (serializeAppendEntriesArgs zeroIndexArgs).length < 2 ^ 32 := by
      rw [length_serializeAppendEntriesArgs]
      decide
    have hargs : deserializeAppendEntriesArgs (serializeAppendEntriesArgs zeroIndexArgs) =
        some zeroIndexArgs := by
      have hbounded : zeroIndexArgs.Bounded := by
        constructor <;> decide
      have hwf : ∀ e ∈ zeroIndexArgs.entries, e.WellFormed := by
        intro e he
        rw [List.mem_singleton.mp he]
        exact ⟨Command.wellFormed_noop, by decide, by decide⟩
      have h := receiveAppendEntries_of_wellFormed hbounded hlen hwf
      rwa [receiveAppendEntries, receivedBody_eq_self hlen] at h
    rw [Server.handlePeerConnection, hargs]
    rfl
  · have := h (Server.new 1 [2]) .requestVoteArgs []
    rw [hempty] at this
    exact absurd this (by simp)

end RaftConsensus
