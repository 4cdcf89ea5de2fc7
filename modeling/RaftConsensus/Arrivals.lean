import RaftConsensus.Exchange
import Mathlib.Data.List.Flatten
import Mathlib.Data.List.Infix
import Mathlib.Data.Nat.Find

/-!
# What arrives of a request

A leader sends its whole log after `prevLogIndex` every time, so while its log only grows a
request is a *snapshot*: the part of the final log `L` between two positions.  Its header
arrives as it is, and each entry arrives, or is lost, by itself.  An entry that does arrive has
kept its term and its index, which is all that a follower looks at when it compares logs.

So a follower that has the log `F` takes the requests of `L` for requests of another log: the one
that begins as `F` does, as long as `F` and `L` agree, and goes on with what arrives of `L`
(`Sight`).  This is sound if nothing arrives behind an entry that is lost (`LostLast`).

* `LostLast.arrives`: then a part of what arrives is what arrives of a part.
* `Matching.exists_sight`: what a follower sees of a log.
-/

namespace RaftConsensus

/-! ## Snapshots of a log -/

namespace AppendEntriesArgs

/-- The index of the last entry that a request covers. -/
def lastSent (args : AppendEntriesArgs) : ℕ := args.prevLogIndex + args.entries.length

/-- The index that a request commits. -/
def commits (args : AppendEntriesArgs) : ℕ := min args.leaderCommit args.lastSent

/-- What a request comes to on its way, below 4 GiB. -/
def received (args : AppendEntriesArgs) : AppendEntriesArgs :=
  { args with entries := args.entries.filterMap decodeEntry }

end AppendEntriesArgs

/-- The log fits into one message. -/
def Sendable (log : List LogEntry) : Prop := 44 + (log.flatMap entryBlob).length < 2 ^ 32

theorem Sendable.of_sublist {log es : List LogEntry} (h : Sendable log) (hes : es.Sublist log) :
    Sendable es :=
  (Nat.add_le_add_left (hes.flatMap entryBlob).length_le 44).trans_lt h

theorem Sendable.length_lt {log : List LogEntry} (h : Sendable log) :
    log.length + 1 < 2 ^ 64 := by
  have hlen := length_le_flatMap_entryBlob log
  unfold Sendable at h
  omega

theorem Indexed.index_lt {log : List LogEntry} (h : Indexed log) (hsize : Sendable log)
    (e : LogEntry) (he : e ∈ log) : e.index < 2 ^ 64 := by
  obtain ⟨k, hk⟩ := List.mem_iff_getElem?.mp he
  have hlt := (List.getElem?_eq_some_iff.mp hk).1
  have hlen := hsize.length_lt
  rw [h k e hk]
  omega

/-- A request that `replicationLoop` builds in the term `T` from what the log `L` was then.  The
fields of its header are 64-bit numbers, as they are in the source. -/
def Snapshot (L : List LogEntry) (T : ℕ) (args : AppendEntriesArgs) : Prop :=
  ∃ (s : Server) (peer : ℕ), s.appendEntriesArgs peer = some args ∧ s.metadata.currentTerm = T ∧
    s.logEntries <+: L ∧ s.nextIndex peer ≤ s.logEntries.length + 1 ∧ args.Bounded

/-- The entries of a request are those of `L` between two positions, and the previous entry is that
of `L`. -/
structure Part (L : List LogEntry) (args : AppendEntriesArgs) : Prop where
  entries : args.entries = (L.take args.lastSent).drop args.prevLogIndex
  last_le : args.lastSent ≤ L.length
  prev_term : args.prevLogIndex ≠ 0 →
    L[args.prevLogIndex - 1]?.map LogEntry.term = some args.prevLogTerm

theorem Part.prev_le {L : List LogEntry} {args : AppendEntriesArgs} (h : Part L args) :
    args.prevLogIndex ≤ L.length := (Nat.le_add_right _ _).trans h.last_le

namespace Snapshot

variable {L : List LogEntry} {T : ℕ} {args : AppendEntriesArgs} (h : Snapshot L T args)

include h

theorem part : Part L args := by
  obtain ⟨s, peer, hsent, -, hpre, hnext, -⟩ := h
  unfold Server.appendEntriesArgs at hsent
  split at hsent
  · exact absurd hsent (by simp)
  obtain rfl := Option.some.inj hsent
  have hlast : max 1 (s.nextIndex peer) - 1 +
      (s.logEntries.drop (max 1 (s.nextIndex peer) - 1)).length = s.logEntries.length := by
    rw [List.length_drop]
    omega
  refine ⟨?_, hlast.le.trans hpre.length_le, fun hne => ?_⟩
  · rw [AppendEntriesArgs.lastSent, hlast, ← List.prefix_iff_eq_take.mp hpre]
  · dsimp only at hne ⊢
    have hget : s.logEntries[max 1 (s.nextIndex peer) - 1 - 1]? =
        L[max 1 (s.nextIndex peer) - 1 - 1]? := by
      rw [List.prefix_iff_eq_take.mp hpre, List.getElem?_take_of_lt (by omega)]
    rw [← hget, Server.termAt, if_neg hne, List.getElem?_eq_getElem (by omega)]
    rfl

/-- **What arrives**: the header, and what becomes of each entry. -/
theorem receive (hsize : Sendable L) : receiveAppendEntries args = some args.received := by
  have hpart := h.part
  obtain ⟨-, -, -, -, -, -, hbounded⟩ := h
  refine receiveAppendEntries_eq hbounded ?_
  rw [length_serializeAppendEntriesArgs, hpart.entries]
  exact hsize.of_sublist ((List.drop_sublist _ _).trans (List.take_sublist _ _))

end Snapshot

/-- A request arrives at a server: it was serialized, it is deserialized, and it is handled.  `none`
is an access outside the body or outside the log. -/
def Server.receiveRequest (s : Server) (args : AppendEntriesArgs) :
    Option (AppendEntriesReply × Server) :=
  (receiveAppendEntries args).bind s.handleAppendEntries

namespace Snapshot

variable {L : List LogEntry} {T : ℕ} {args : AppendEntriesArgs} (h : Snapshot L T args)
  (hsize : Sendable L)

include h hsize

theorem receiveRequest_eq (s : Server) :
    s.receiveRequest args = s.handleAppendEntries args.received := by
  rw [Server.receiveRequest, h.receive hsize, Option.bind_some]

end Snapshot

/-! ## What arrives of a log -/

/-- Nothing arrives behind an entry that is lost. -/
def LostLast (L : List LogEntry) : Prop :=
  ∃ A B, L = A ++ B ∧ (∀ e ∈ A, (decodeEntry e).isSome) ∧ ∀ e ∈ B, decodeEntry e = none

/-- Entries that fit all arrive. -/
theorem lostLast_of_wellFormed {L : List LogEntry} (h : ∀ e ∈ L, e.WellFormed) : LostLast L := by
  refine ⟨L, [], (List.append_nil L).symm, fun e he => ?_, by simp⟩
  rw [decodeEntry_of_wellFormed (h e he)]
  rfl

/-- It is enough that no entry arrives behind one that is lost next to it. -/
theorem lostLast_of_adjacent {L : List LogEntry}
    (h : ∀ i (hi : i + 1 < L.length), decodeEntry L[i] = none → decodeEntry L[i + 1] = none) :
    LostLast L := by
  induction L with
  | nil => exact ⟨[], [], rfl, by simp, by simp⟩
  | cons e L ih =>
    obtain ⟨A, B, hsplit, hA, hB⟩ := ih fun i hi hlost => h (i + 1) (by simpa using hi) hlost
    rcases he : decodeEntry e with _ | e'
    · refine ⟨[], e :: L, rfl, by simp, ?_⟩
      -- the loss goes on from one entry to the next
      have hnext : ∀ i (hi : i < (e :: L).length), decodeEntry (e :: L)[i] = none := by
        intro i
        induction i with
        | zero => exact fun _ => he
        | succ i ihi => exact fun hi => h i hi (ihi (by omega))
      intro x hx
      obtain ⟨i, hi, rfl⟩ := List.mem_iff_getElem.mp hx
      exact hnext i hi
    · refine ⟨e :: A, B, by rw [hsplit, List.cons_append], fun x hx => ?_, hB⟩
      rcases List.mem_cons.mp hx with rfl | hx
      · rw [he]
        rfl
      · exact hA x hx

/-- `D` is what arrives of `L`: entries at the same places, with the same terms and indices. -/
structure Arrives (L D : List LogEntry) : Prop where
  part : ∀ k m, ((L.take m).drop k).filterMap decodeEntry = (D.take m).drop k
  entry : ∀ {i : ℕ} {d : LogEntry}, D[i]? = some d →
    ∃ e, L[i]? = some e ∧ d.term = e.term ∧ d.index = e.index

/-- **A part of what arrives** is what arrives of a part. -/
theorem LostLast.arrives {L : List LogEntry} (h : LostLast L)
    (hlt : ∀ e ∈ L, e.term < 2 ^ 64 ∧ e.index < 2 ^ 64) : Arrives L (L.filterMap decodeEntry) := by
  obtain ⟨A, B, rfl, hA, hB⟩ := h
  let f : LogEntry → LogEntry := fun e => (decodeEntry e).getD e
  have hf : ∀ e ∈ A, decodeEntry e = some (f e) := by
    intro e he
    obtain ⟨x, hx⟩ := Option.isSome_iff_exists.mp (hA e he)
    show _ = some ((decodeEntry e).getD e)
    rw [hx, Option.getD_some]
  have hmap : ∀ {es : List LogEntry}, (∀ e ∈ es, e ∈ A) → es.filterMap decodeEntry = es.map f := by
    intro es hes
    rw [List.filterMap_congr (g := some ∘ f) fun e he => hf e (hes e he), List.filterMap_eq_map]
  have hnil : ∀ {es : List LogEntry}, (∀ e ∈ es, e ∈ B) → es.filterMap decodeEntry = [] := by
    intro es hes
    exact List.filterMap_eq_nil_iff.mpr fun e he => hB e (hes e he)
  have hD : (A ++ B).filterMap decodeEntry = A.map f := by
    rw [List.filterMap_append, hmap fun _ he => he, hnil fun _ he => he, List.append_nil]
  rw [hD]
  refine ⟨fun k m => ?_, fun {i d} hd => ?_⟩
  · rw [List.take_append, List.drop_append, List.filterMap_append,
      hmap fun e he => List.mem_of_mem_take (List.mem_of_mem_drop he),
      hnil fun e he => List.mem_of_mem_take (List.mem_of_mem_drop he), List.append_nil,
      List.map_drop, List.map_take]
  · rw [List.getElem?_map] at hd
    obtain ⟨e, he, rfl⟩ := Option.map_eq_some_iff.mp hd
    have hmem := List.mem_of_getElem? he
    have hbounds := hlt e (List.mem_append_left _ hmem)
    have hi := (List.getElem?_eq_some_iff.mp he).1
    exact ⟨e, by rw [List.getElem?_append_left hi, he],
      decodeEntry_term_index hbounds.1 hbounds.2 (hf e hmem)⟩

/-! ## What a follower has of a log -/

theorem Matching.take_right {l l' : List LogEntry} (h : Matching l l') (n : ℕ) :
    Matching l (l'.take n) := by
  intro k e e' hk hk' hterm
  rcases Nat.lt_or_ge k n with hlt | hge
  · rw [List.getElem?_take_of_lt hlt] at hk'
    rw [h k e e' hk hk' hterm, List.take_take, min_eq_left hlt]
  · rw [List.getElem?_eq_none (by rw [List.length_take]; omega)] at hk'
    exact absurd hk' (by simp)

theorem Matching.refl (l : List LogEntry) : Matching l l := fun _ _ _ _ _ _ => rfl

theorem Matching.take_left {l l' : List LogEntry} (h : Matching l l') (n : ℕ) :
    Matching (l.take n) l' := (h.symm.take_right n).symm

/-- The log of a follower that started with `F` and has accepted snapshots of `L` up to `n`. -/
def logAfter (F L : List LogEntry) (n : ℕ) : List LogEntry :=
  if L.take n <+: F then F else L.take n

section LogAfter

variable {F L : List LogEntry} {n m : ℕ}

/-- It holds the snapshots. -/
theorem take_logAfter (hn : n ≤ L.length) : (logAfter F L n).take n = L.take n := by
  rw [logAfter]
  split
  · next hpre =>
    have := List.prefix_iff_eq_take.mp hpre
    rw [List.length_take_of_le hn] at this
    exact this.symm
  · rw [List.take_take, min_self]

theorem le_length_logAfter (hn : n ≤ L.length) : n ≤ (logAfter F L n).length := by
  have h := congrArg List.length (take_logAfter (F := F) hn)
  rw [List.length_take, List.length_take_of_le hn] at h
  omega

theorem Matching.logAfter (h : Matching F L) (n : ℕ) : Matching (logAfter F L n) L := by
  rw [RaftConsensus.logAfter]
  split
  · exact h
  · exact (Matching.refl L).take_left n

theorem Indexed.logAfter (hF : Indexed F) (hL : Indexed L) (n : ℕ) : Indexed (logAfter F L n) := by
  rw [RaftConsensus.logAfter]
  split
  · exact hF
  · exact hL.take n

theorem logAfter_zero (F L : List LogEntry) : logAfter F L 0 = F :=
  if_pos (by rw [List.take_zero]; exact List.nil_prefix)

/-- **One more snapshot**, of any length, comes to the longer of the two. -/
theorem logAfter_logAfter (hn : n ≤ L.length) (hm : m ≤ L.length) :
    logAfter (logAfter F L n) L m = logAfter F L (max n m) := by
  have hpre : ∀ {i j : ℕ}, i ≤ j → L.take i <+: L.take j := fun hij => by
    rw [← min_eq_left hij, ← List.take_take]
    exact List.take_prefix _ _
  rcases Nat.le_total m n with hmn | hnm
  · -- the shorter one is held already
    rw [max_eq_left hmn]
    refine if_pos ?_
    rw [List.prefix_iff_eq_take, List.length_take_of_le hm]
    exact (take_eq_of_take_eq (take_logAfter hn) hmn).symm
  · rw [max_eq_right hnm]
    by_cases hF : L.take n <+: F
    · rw [show logAfter F L n = F from if_pos hF]
    · have hF' : ¬ L.take m <+: F := fun h => hF ((hpre hnm).trans h)
      rw [show logAfter F L n = L.take n from if_neg hF, logAfter, logAfter, if_neg hF']
      split
      · next hback =>
        have hle := hback.length_le
        rw [List.length_take_of_le hn, List.length_take_of_le hm] at hle
        rw [le_antisymm hle hnm]
      · rfl

end LogAfter

/-! ## What a follower sees of a log -/

/-- Two logs agree on their first `j` entries, and from there on not even in a term. -/
structure Common (F L : List LogEntry) (j : ℕ) : Prop where
  take_eq : F.take j = L.take j
  le : j ≤ F.length
  le' : j ≤ L.length
  differ : ∀ {k : ℕ} {e e' : LogEntry}, F[k]? = some e → L[k]? = some e' → e.term = e'.term → k < j

theorem Matching.exists_common {F L : List LogEntry} (h : Matching F L) : ∃ j, Common F L j := by
  classical
  have hzero : F.take 0 = L.take 0 := by rw [List.take_zero, List.take_zero]
  set j := Nat.findGreatest (fun j => F.take j = L.take j) (min F.length L.length) with hj
  have hle : j ≤ min F.length L.length := Nat.findGreatest_le _
  refine ⟨j, Nat.findGreatest_spec (P := fun j => F.take j = L.take j) (Nat.zero_le _) hzero,
    hle.trans (min_le_left _ _), hle.trans (min_le_right _ _), fun {k e e'} hk hk' hterm => ?_⟩
  have hlt := (List.getElem?_eq_some_iff.mp hk).1
  have hlt' := (List.getElem?_eq_some_iff.mp hk').1
  exact Nat.le_findGreatest (P := fun j => F.take j = L.take j) (le_min hlt hlt')
    (h k e e' hk hk' hterm)

/-- **What the follower `F` sees of the log `L`**, of which `D` arrives: its own log as long as the
two agree, and then what arrives. -/
def sight (F D : List LogEntry) (j : ℕ) : List LogEntry := F.take j ++ D.drop j

section Sight

variable {F L D : List LogEntry} {j : ℕ} (hj : Common F L j)

include hj

theorem take_sight {k : ℕ} (hk : k ≤ j) : (sight F D j).take k = F.take k := by
  have hle := hj.le
  rw [sight, List.take_append_of_le_length (by rw [List.length_take]; omega), List.take_take,
    min_eq_left hk]

theorem drop_sight {k : ℕ} (hk : j ≤ k) : (sight F D j).drop k = D.drop k := by
  have hlen : (F.take j).length = j := List.length_take_of_le hj.le
  rw [sight, List.drop_append, List.drop_eq_nil_of_le (by omega), List.nil_append, hlen,
    List.drop_drop, Nat.add_sub_cancel' hk]

theorem length_sight : (sight F D j).length = max j D.length := by
  rw [sight, List.length_append, List.length_take_of_le hj.le, List.length_drop]
  omega

/-- Each entry of it stands in the same place of `L`, with the same term and index. -/
theorem entry_sight (hD : Arrives L D) {k : ℕ} {e : LogEntry} (he : (sight F D j)[k]? = some e) :
    ∃ x, L[k]? = some x ∧ e.term = x.term ∧ e.index = x.index := by
  rcases Nat.lt_or_ge k j with hlt | hge
  · have hF : F[k]? = some e := by
      rw [← getElem?_eq_of_take_eq (take_sight hj (D := D) le_rfl) hlt, he]
    exact ⟨e, by rw [← getElem?_eq_of_take_eq hj.take_eq hlt, hF], rfl, rfl⟩
  · refine hD.entry (i := k) ?_
    have hdrop := congrArg (fun l => l[0]?) (drop_sight hj (D := D) hge)
    simp only [List.getElem?_drop, Nat.add_zero] at hdrop
    rw [← hdrop, he]

theorem indexed_sight (hL : Indexed L) (hD : Arrives L D) : Indexed (sight F D j) := by
  intro k e he
  obtain ⟨x, hx, -, hindex⟩ := entry_sight hj hD he
  rw [hindex, hL k x hx]

/-- The follower's log matches what it sees. -/
theorem matching_sight (hD : Arrives L D) : Matching F (sight F D j) := by
  intro k e e' hk hk' hterm
  obtain ⟨x, hx, hxterm, -⟩ := entry_sight hj hD hk'
  exact (take_sight hj (hj.differ hk hx (hterm.trans hxterm))).symm

/-- Whatever it has accepted, the follower keeps what its log had in common with `L`. -/
theorem take_logAfter_sight (n : ℕ) : (logAfter F (sight F D j) n).take j = F.take j := by
  rw [logAfter]
  split
  · rfl
  · next hnot =>
    have hlt : j < n := by
      by_contra hle
      refine hnot ?_
      rw [take_sight hj (not_lt.mp hle)]
      exact List.take_prefix _ _
    rw [List.take_take, min_eq_left hlt.le]
    exact take_sight hj le_rfl

/-- **Entries that arrive are read as those of the sight**: those that the log has in common with
`L` change nothing, and the others are the same. -/
theorem reconcile_sight (hL : Indexed L) (hD : Arrives L D) {G : List LogEntry}
    (hG : G.take j = F.take j) {n : ℕ} (hn : n ≤ D.length) (k : ℕ) (b : Bool) :
    Server.reconcile G b ((D.take n).drop k) =
      Server.reconcile G b (((sight F D j).take n).drop k) := by
  rcases Nat.lt_or_ge k j with hlt | hge
  · rcases Nat.lt_or_ge k n with hkn | hkn
    · have hlen : (sight F D j).length = max j D.length := length_sight hj
      have hd : D[k]? = some D[k] := List.getElem?_eq_getElem (by omega)
      have hs : (sight F D j)[k]? = some (sight F D j)[k] := List.getElem?_eq_getElem (by omega)
      obtain ⟨x, hx, hterm, hindex⟩ := hD.entry hd
      obtain ⟨x', hx', hterm', hindex'⟩ := entry_sight hj hD hs
      obtain rfl : x = x' := Option.some.inj (hx.symm.trans hx')
      have hGx : G[k]? = some x := by
        rw [getElem?_eq_of_take_eq hG hlt, getElem?_eq_of_take_eq hj.take_eq hlt, hx]
      have hxindex := hL k x hx
      rw [List.drop_eq_getElem_cons (l := D.take n) (by rw [List.length_take]; omega),
        List.drop_eq_getElem_cons (l := (sight F D j).take n) (by rw [List.length_take]; omega),
        List.getElem_take, List.getElem_take,
        Server.reconcile_cons_held hGx (hindex.trans hxindex) hterm,
        Server.reconcile_cons_held hGx (hindex'.trans hxindex) hterm']
      exact reconcile_sight hL hD hG hn (k + 1) b
    · rw [List.drop_eq_nil_of_le (by rw [List.length_take]; omega),
        List.drop_eq_nil_of_le (by rw [List.length_take]; omega)]
  · rw [List.drop_take, List.drop_take, drop_sight hj hge]
termination_by n - k

end Sight

/-- What matters of a sight `V` of `L` for the follower `F`: an accepted request is read as a part
of it, and when all has been read that arrives of `L`, nothing more happens. -/
structure Sight (F L D V : List LogEntry) : Prop where
  indexed : Indexed V
  matching : Matching F V
  le : V.length ≤ max F.length D.length
  reads : ∀ {s : Server} {args : AppendEntriesArgs} {n : ℕ}, Part L args →
    s.logEntries = logAfter F V n → s.prevMatches args = true →
      args.received.lastSent ≤ V.length ∧
        s.logEntries.take args.prevLogIndex = V.take args.prevLogIndex ∧
          ∀ b, Server.reconcile s.logEntries b args.received.entries =
            Server.reconcile s.logEntries b
              ((V.take args.received.lastSent).drop args.prevLogIndex)
  stuck : ∀ {n m : ℕ}, D.length ≤ n → n ≤ V.length → m ≤ V.length →
    logAfter F V (max n m) = logAfter F V n

/-- Where a request ends when it arrives. -/
theorem Part.lastSent_received {L D : List LogEntry} {args : AppendEntriesArgs} (h : Part L args)
    (hD : Arrives L D) : args.received.entries = (D.take args.lastSent).drop args.prevLogIndex ∧
      args.received.lastSent =
        args.prevLogIndex + (min args.lastSent D.length - args.prevLogIndex) := by
  have hentries : args.received.entries = (D.take args.lastSent).drop args.prevLogIndex := by
    rw [← hD.part, ← h.entries]
    rfl
  refine ⟨hentries, ?_⟩
  have hlen := congrArg List.length hentries
  rw [List.length_drop, List.length_take] at hlen
  rw [← hlen]
  rfl

section Sight

variable {F L D : List LogEntry} {j : ℕ} (hj : Common F L j)

include hj

/-- An accepted request begins inside of what the follower sees. -/
theorem Part.prev_le_sight {s : Server} {args : AppendEntriesArgs} {n : ℕ} (h : Part L args)
    (hs : s.logEntries = logAfter F (sight F D j) n) (hprev : s.prevMatches args = true) :
    args.prevLogIndex ≤ (sight F D j).length := by
  have hle := h.prev_le
  have hlen : (sight F D j).length = max j D.length := length_sight hj
  by_contra hgt
  have hne : args.prevLogIndex ≠ 0 := by omega
  rw [Server.prevMatches, decide_eq_false hne, Bool.false_or, Bool.and_eq_true,
    decide_eq_true_eq, decide_eq_true_eq] at hprev
  obtain ⟨hlong, hat⟩ := hprev
  -- the log is longer than what the follower has seen, so it is its first one
  have hF : s.logEntries = F := by
    rw [hs] at hlong ⊢
    rw [logAfter] at hlong ⊢
    split at hlong
    · next hpre => rw [if_pos hpre]
    · rw [List.length_take] at hlong
      omega
  rw [hF] at hlong
  have hgetL : L[args.prevLogIndex - 1]? = some L[args.prevLogIndex - 1] :=
    List.getElem?_eq_getElem (by omega)
  have hgetF : F[args.prevLogIndex - 1]? = some F[args.prevLogIndex - 1] :=
    List.getElem?_eq_getElem (by omega)
  have hterm := h.prev_term hne
  rw [hgetL, Option.map_some, Option.some.injEq] at hterm
  rw [Server.termAt, if_neg hne, hF, hgetF, Option.map_some, Option.getD_some] at hat
  have := hj.differ hgetF hgetL (hat.trans hterm.symm)
  omega

/-- Its log agrees with what it sees up to there. -/
theorem Part.take_sight {s : Server} {args : AppendEntriesArgs} {n : ℕ} (h : Part L args)
    (hD : Arrives L D) (hs : s.logEntries = logAfter F (sight F D j) n)
    (hprev : s.prevMatches args = true) :
    s.logEntries.take args.prevLogIndex = (sight F D j).take args.prevLogIndex := by
  have hwithin := h.prev_le_sight hj hs hprev
  have hmatch : Matching s.logEntries (sight F D j) := by
    rw [hs]
    exact (matching_sight hj hD).logAfter n
  refine Server.take_eq_of_prevMatches hmatch hwithin (fun hne => ?_) hprev
  have hget : (sight F D j)[args.prevLogIndex - 1]? = some (sight F D j)[args.prevLogIndex - 1] :=
    List.getElem?_eq_getElem (by omega)
  obtain ⟨x, hx, hterm, -⟩ := entry_sight hj hD hget
  have hsent := h.prev_term hne
  rw [hx, Option.map_some, ← hterm] at hsent
  rw [hget, Option.map_some, hsent]

/-- **A request is read as a part of what the follower sees.** -/
theorem Part.reconcile_received {G : List LogEntry} {args : AppendEntriesArgs} (h : Part L args)
    (hL : Indexed L) (hD : Arrives L D) (hG : G.take j = F.take j) (b : Bool) :
    Server.reconcile G b args.received.entries = Server.reconcile G b
      (((sight F D j).take args.received.lastSent).drop args.prevLogIndex) := by
  obtain ⟨hentries, hend⟩ := h.lastSent_received hD
  rw [hentries]
  rcases Nat.lt_or_ge args.prevLogIndex D.length with hlt | hge
  · have hsame : args.received.lastSent = min args.lastSent D.length := by
      have : args.prevLogIndex ≤ args.lastSent := Nat.le_add_right _ _
      omega
    rw [List.take_eq_take_min, hsame]
    exact reconcile_sight hj hL hD hG (min_le_right _ _) _ b
  · rw [List.drop_eq_nil_of_le (by rw [List.length_take]; omega),
      List.drop_eq_nil_of_le (by rw [List.length_take]; omega)]

/-- When all has been seen that arrives, the log stays as it is. -/
theorem logAfter_sight {n m : ℕ} (hn : D.length ≤ n) (hnV : n ≤ (sight F D j).length)
    (hmV : m ≤ (sight F D j).length) :
    logAfter F (sight F D j) (max n m) = logAfter F (sight F D j) n := by
  have hlen : (sight F D j).length = max j D.length := length_sight hj
  rcases Nat.lt_or_ge j D.length with hlt | hge
  · rw [max_eq_left (by omega)]
  · have hall : ∀ i, logAfter F (sight F D j) i = F := by
      intro i
      refine if_pos ?_
      rw [sight, List.drop_eq_nil_of_le hge, List.append_nil]
      exact (List.take_prefix _ _).trans (List.take_prefix _ _)
    rw [hall, hall]

end Sight

/-- **A follower sees a log**, if nothing arrives of it behind an entry that is lost. -/
theorem Matching.exists_sight {F L D : List LogEntry} (h : Matching F L) (hL : Indexed L)
    (hD : Arrives L D) : ∃ V, Sight F L D V := by
  obtain ⟨j, hj⟩ := h.exists_common
  have hlen : (sight F D j).length = max j D.length := length_sight hj
  have hle := hj.le
  refine ⟨sight F D j, indexed_sight hj hL hD, matching_sight hj hD, by omega,
    fun {s args n} hpart hs hprev => ?_, logAfter_sight hj⟩
  have hwithin := hpart.prev_le_sight hj hs hprev
  obtain ⟨-, hend⟩ := hpart.lastSent_received hD
  have hcommon : s.logEntries.take j = F.take j := by
    rw [hs]
    exact take_logAfter_sight hj n
  exact ⟨by omega, hpart.take_sight hj hD hs hprev, hpart.reconcile_received hj hL hD hcommon⟩

end RaftConsensus
