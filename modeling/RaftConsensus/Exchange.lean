import RaftConsensus.Reconcile

/-!
# One AppendEntries, from the leader to its acknowledgement

A leader builds a request from `nextIndex`, the follower decodes it and answers, and the
leader credits the follower with every entry that it *sent*.  `Truthful` says that the
credit is deserved: after `success = true` the follower holds the leader's log up to the
last entry sent.

The weak spot is an entry whose key or value does not fit its length field.  It does not
survive the wire: the follower skips it, or reads another command in its place.  If the
follower has the entry already, nothing is lost.  Otherwise it goes on with the entries
that are left and acknowledges them all (`Held`).

* `acknowledgement_truthful_iff`: below 4 GiB, a request is acknowledged truthfully exactly
  if every oversized entry in it was held before.
* `oversized_entry_is_credited`: a leader that counts an entry which nobody else has.
-/

namespace RaftConsensus

/-- An entry on the wire keeps its term and index, so one that the follower holds already does no
harm, whatever becomes of its command. -/
theorem Server.reconcile_decoded {F L : List LogEntry} (hL : Indexed L) (hmatch : Matching F L)
    (hlt : ∀ e ∈ L, e.term < 2 ^ 64 ∧ e.index < 2 ^ 64) {m : ℕ} (hm : F.take m = L.take m)
    (hheld : ∀ k e, m ≤ k → L[k]? = some e → ¬ e.WellFormed → F[k]? = some e) (b : Bool)
    [Decidable (L <+: F)] :
    reconcile F b ((L.drop m).filterMap decodeEntry) =
      if L <+: F then some (F, b) else some (L, true) := by
  by_cases hwf : ∀ e ∈ L.drop m, e.WellFormed
  · rw [filterMap_decodeEntry hwf]
    exact reconcile_drop hL hmatch hm b
  -- an entry that is not well formed is held, and by log matching all entries before it are
  · push Not at hwf
    obtain ⟨x, hx, hbad⟩ := hwf
    obtain ⟨j, hj⟩ := List.mem_iff_getElem?.mp hx
    rw [List.getElem?_drop] at hj
    have hsame := hmatch.take_eq (hheld _ x (by omega) hj hbad) hj
    have hlen : m + j < L.length := (List.getElem?_eq_some_iff.mp hj).1
    have hget : L[m]? = some L[m] := List.getElem?_eq_getElem (by omega)
    have hF : F[m]? = some L[m] := by
      rw [getElem?_eq_of_take_eq hsame (by omega), hget]
    have hbounds := hlt L[m] (List.mem_of_getElem? hget)
    have hnext : F.take (m + 1) = L.take (m + 1) := hmatch.take_eq hF hget
    have ih := reconcile_decoded hL hmatch hlt hnext
      (fun k e hk => hheld k e (by omega)) b
    rw [List.drop_eq_getElem_cons (by omega)]
    rcases hdec : decodeEntry L[m] with _ | e
    · rw [List.filterMap_cons_none hdec]
      exact ih
    · obtain ⟨hterm, hindex⟩ := decodeEntry_term_index hbounds.1 hbounds.2 hdec
      rw [List.filterMap_cons_some hdec,
        reconcile_cons_held hF (hindex.trans (hL m _ hget)) hterm]
      exact ih
termination_by L.length - m

/-- What is assumed of a leader `s`, of a follower `f`, and of the request that the leader builds
for `peer`.  The entries of the leader come from client lines of any length and from
`becomeLeader`, which writes the command of a `GET`. -/
structure Exchange (s f : Server) (peer : ℕ) (args : AppendEntriesArgs) : Prop where
  sent : s.appendEntriesArgs peer = some args
  nextIndex_le : s.nextIndex peer ≤ s.logEntries.length + 1
  bounded : args.Bounded
  entry_lt : ∀ e ∈ s.logEntries, e.term < 2 ^ 64 ∧ e.index < 2 ^ 64
  asked : ∀ e ∈ s.logEntries, ∃ request : Request, e.command = request.command
  indexed : Indexed s.logEntries
  follower_indexed : Indexed f.logEntries
  matching : Matching f.logEntries s.logEntries

/-- An acknowledgement is truthful: up to the last entry sent the follower's log is the leader's,
and its entries carry their positions. -/
def Truthful (s f : Server) (args : AppendEntriesArgs) : Prop :=
  ∀ args' r, receiveAppendEntries args = some args' → f.handleAppendEntries args' = some r →
    r.1.success = true →
      r.2.logEntries.take (args.prevLogIndex + args.entries.length) =
          s.logEntries.take (args.prevLogIndex + args.entries.length) ∧
        args.prevLogIndex + args.entries.length ≤ r.2.logEntries.length ∧ Indexed r.2.logEntries

/-- The follower takes the request: its term is not later, and it has the entry before. -/
def Accepts (f : Server) (args : AppendEntriesArgs) : Prop :=
  f.metadata.currentTerm ≤ args.term ∧ f.prevMatches args = true

/-- The follower does not take the request, or the request is smaller than 4 GiB and the follower
holds every entry in it whose key or value does not fit. -/
def Held (s f : Server) (args : AppendEntriesArgs) : Prop :=
  Accepts f args → (serializeAppendEntriesArgs args).length < 2 ^ 32 ∧
    ∀ k e, args.prevLogIndex ≤ k → s.logEntries[k]? = some e → ¬ e.command.Fits →
      f.logEntries[k]? = some e

namespace Exchange

variable {s f : Server} {peer : ℕ} {args : AppendEntriesArgs} (h : Exchange s f peer args)

include h

/-- The request holds the leader's log after `prevLogIndex`. -/
theorem request : args.entries = s.logEntries.drop args.prevLogIndex ∧
    args.prevLogIndex ≤ s.logEntries.length ∧ (args.prevLogIndex ≠ 0 →
      s.logEntries[args.prevLogIndex - 1]?.map LogEntry.term = some args.prevLogTerm) := by
  have hsent := h.sent
  have hnext := h.nextIndex_le
  unfold Server.appendEntriesArgs at hsent
  split at hsent
  · exact absurd hsent (by simp)
  · rw [← Option.some.inj hsent]
    refine ⟨rfl, ?_, fun hne => ?_⟩
    · show max 1 (s.nextIndex peer) - 1 ≤ s.logEntries.length
      omega
    · show s.logEntries[max 1 (s.nextIndex peer) - 1 - 1]?.map LogEntry.term =
        some (s.termAt (max 1 (s.nextIndex peer) - 1))
      have hne' : max 1 (s.nextIndex peer) - 1 ≠ 0 := hne
      rw [Server.termAt, if_neg hne', List.getElem?_eq_getElem (by omega)]
      rfl

/-- The last entry sent is the leader's last. -/
theorem last_sent : args.prevLogIndex + args.entries.length = s.logEntries.length := by
  obtain ⟨hentries, hle, -⟩ := h.request
  rw [hentries, List.length_drop]
  omega

theorem fits_of_wellFormed {k : ℕ} {e : LogEntry} (hk : s.logEntries[k]? = some e) :
    e.WellFormed ↔ e.command.Fits := by
  have hmem := List.mem_of_getElem? hk
  constructor
  · exact fun hwf => ⟨hwf.command.key_lt, hwf.command.value_lt⟩
  · intro hfits
    obtain ⟨request, hrequest⟩ := h.asked e hmem
    have hlt := h.entry_lt e hmem
    rw [hrequest] at hfits
    exact ⟨hrequest ▸ Request.wellFormed_command hfits, hlt.1, hlt.2⟩

/-- What the follower takes or not does not depend on the entries. -/
theorem accepts_of_received {args' : AppendEntriesArgs}
    (hrec : receiveAppendEntries args = some args')
    (hterm : f.metadata.currentTerm ≤ args'.term) (hprev : f.prevMatches args' = true) :
    Accepts f args := by
  obtain ⟨h1, -, h3, h4, -⟩ := receiveAppendEntries_header hrec
  rw [Nat.mod_eq_of_lt h.bounded.term] at h1
  rw [Nat.mod_eq_of_lt h.bounded.prevLogIndex] at h3
  rw [Nat.mod_eq_of_lt h.bounded.prevLogTerm] at h4
  refine ⟨h1 ▸ hterm, ?_⟩
  rw [Server.prevMatches, h3, h4] at hprev
  exact hprev

theorem take_eq (hacc : Accepts f args) :
    f.logEntries.take args.prevLogIndex = s.logEntries.take args.prevLogIndex := by
  obtain ⟨-, hle, hterm⟩ := h.request
  exact Server.take_eq_of_prevMatches h.matching hle hterm hacc.2

/-- **Enough for the acknowledgement to be truthful.** -/
theorem truthful_of_held (hheld : Held s f args) : Truthful s f args := by
  classical
  intro args' r hrec hr hsuccess
  obtain ⟨hterm, hprev, changed, hrecon⟩ := Server.handleAppendEntries_success hr hsuccess
  have hacc := h.accepts_of_received hrec hterm hprev
  obtain ⟨hlen, hheld⟩ := hheld hacc
  rw [receiveAppendEntries_eq h.bounded hlen] at hrec
  rw [← Option.some.inj hrec] at hrecon
  dsimp only at hrecon
  rw [h.request.1, Server.reconcile_decoded h.indexed h.matching h.entry_lt (h.take_eq hacc)
    (fun k e hk he hbad => hheld k e hk he fun hfits => hbad ((h.fits_of_wellFormed he).mpr hfits))]
    at hrecon
  rw [h.last_sent, List.take_length]
  split at hrecon
  · next hpre =>
    obtain ⟨heq, -⟩ := Prod.mk.inj (Option.some.inj hrecon)
    rw [← heq]
    exact ⟨(List.prefix_iff_eq_take.mp hpre).symm, hpre.length_le, h.follower_indexed⟩
  · obtain ⟨heq, -⟩ := Prod.mk.inj (Option.some.inj hrecon)
    rw [← heq]
    exact ⟨List.take_length, le_rfl, h.indexed⟩

/-- **And below 4 GiB it is needed**: what does not fit does not arrive. -/
theorem held_of_truthful (hlen : (serializeAppendEntriesArgs args).length < 2 ^ 32)
    (htruth : Truthful s f args) : Held s f args := by
  intro hacc
  refine ⟨hlen, fun k e hk he hbad => ?_⟩
  have hrec := receiveAppendEntries_eq h.bounded hlen
  obtain ⟨hentries, hle, -⟩ := h.request
  -- decoded entries carry the indices of the leader's entries, which are not zero
  have hindex : ∀ x ∈ args.entries.filterMap decodeEntry, x.index ≠ 0 := by
    intro x hx
    obtain ⟨y, hy, hxy⟩ := List.mem_filterMap.mp hx
    rw [hentries] at hy
    have hmem := List.mem_of_mem_drop hy
    obtain ⟨j, hj⟩ := List.mem_iff_getElem?.mp hmem
    have hlt := h.entry_lt y hmem
    rw [(decodeEntry_term_index hlt.1 hlt.2 hxy).2, h.indexed j y hj]
    exact Nat.succ_ne_zero j
  obtain ⟨⟨log, changed⟩, hrecon⟩ := Option.isSome_iff_exists.mp
    (Server.reconcile_isSome hindex f.logEntries false)
  set args' := { args with entries := args.entries.filterMap decodeEntry } with hargs'
  have hterm : f.metadata.currentTerm ≤ args'.term := hacc.1
  obtain ⟨r, hr, hsuccess, hlog⟩ := Server.handleAppendEntries_accept hterm hacc.2 hrecon
  obtain ⟨htake, -⟩ := htruth _ r hrec hr hsuccess
  rw [h.last_sent, List.take_length, hlog] at htake
  have hk' : log[k]? = some e := by
    have hlt := (List.getElem?_eq_some_iff.mp he).1
    rw [← List.getElem?_take_of_lt hlt, htake, he]
  rcases Server.getElem?_reconcile hrecon hk' with hold | hmem
  · exact hold
  · obtain ⟨y, -, hy⟩ := List.mem_filterMap.mp hmem
    exact absurd ((h.fits_of_wellFormed he).mp (wellFormed_of_decodeEntry hy)) hbad

end Exchange

/-- **When a replication acknowledgement is truthful.**  It is if the follower does not take the
request, or if the request is smaller than 4 GiB and every entry in it that does not fit was
held; and below 4 GiB it is in no other case. -/
theorem acknowledgement_truthful_iff {s f : Server} {peer : ℕ} {args : AppendEntriesArgs}
    (h : Exchange s f peer args) :
    (Held s f args → Truthful s f args) ∧
      ((serializeAppendEntriesArgs args).length < 2 ^ 32 → Truthful s f args → Held s f args) :=
  ⟨h.truthful_of_held, h.held_of_truthful⟩

/-- A leader of term 1 whose log is one client entry, about to send it to node 2. -/
def leaderOf (request : Request) : Server :=
  { Server.new 1 [2] with
    role := .leader
    metadata := ⟨1, 1, 0, 0⟩
    logEntries := [⟨1, 1, request.command⟩]
    nextIndex := fun _ => 1 }

/-- Its request. -/
def requestOf (request : Request) : AppendEntriesArgs :=
  ⟨1, 1, 0, 0, [⟨1, 1, request.command⟩], 0⟩

theorem exchange_leaderOf (request : Request) :
    Exchange (leaderOf request) (Server.new 2 [1]) 2 (requestOf request) where
  sent := rfl
  nextIndex_le := by simp [leaderOf]
  bounded := by constructor <;> simp [requestOf]
  entry_lt e he := by
    rw [List.mem_singleton.mp he]
    exact ⟨by simp, by simp⟩
  asked e he := ⟨request, by rw [List.mem_singleton.mp he]⟩
  indexed := Indexed.append_singleton Indexed.nil rfl
  follower_indexed := Indexed.nil
  matching := Matching.nil _

/-- A small entry arrives, and the credit for it is deserved. -/
theorem acknowledgement_truthful_small :
    Truthful (leaderOf (.put [107] [118])) (Server.new 2 [1]) (requestOf (.put [107] [118])) := by
  refine (acknowledgement_truthful_iff (exchange_leaderOf (.put [107] [118]))).1 fun _ => ?_
  refine ⟨by decide, fun k e _ he hbad => absurd ?_ hbad⟩
  rw [List.mem_singleton.mp (List.mem_of_getElem? he)]
  decide

/-- **An oversized entry is credited.**  The leader has an entry with a key of 65536 bytes and an
empty follower answers `success = true` to it, but does not have the entry then. -/
theorem oversized_entry_is_credited :
    Exchange (leaderOf (.put (List.replicate 65536 97) [])) (Server.new 2 [1]) 2
        (requestOf (.put (List.replicate 65536 97) [])) ∧
      ¬ Truthful (leaderOf (.put (List.replicate 65536 97) [])) (Server.new 2 [1])
        (requestOf (.put (List.replicate 65536 97) [])) := by
  have hcredit : ∀ key : Bytes, key.length = 65536 →
      ¬ Truthful (leaderOf (.put key [])) (Server.new 2 [1]) (requestOf (.put key [])) := by
    intro key hkey htruth
    have hlen : (serializeAppendEntriesArgs (requestOf (.put key []))).length < 2 ^ 32 := by
      have hflat : (requestOf (.put key [])).entries.flatMap entryBlob =
          entryBlob ⟨1, 1, (Request.put key []).command⟩ := List.flatMap_singleton _ _
      rw [length_serializeAppendEntriesArgs, hflat, length_entryBlob, length_serializeLogEntry]
      show 44 + (4 + (25 + key.length + 0)) < 2 ^ 32
      omega
    have hacc : Accepts (Server.new 2 [1]) (requestOf (.put key [])) := ⟨Nat.zero_le 1, rfl⟩
    obtain ⟨-, hheld⟩ := (exchange_leaderOf (.put key [])).held_of_truthful hlen htruth hacc
    have hbad : ¬ (Request.put key []).command.Fits := by
      rintro ⟨hlt, -⟩
      have : key.length < 65536 := hlt
      omega
    exact absurd (hheld 0 _ le_rfl rfl hbad) (by simp [Server.new])
  exact ⟨exchange_leaderOf _, hcredit _ List.length_replicate⟩

end RaftConsensus
