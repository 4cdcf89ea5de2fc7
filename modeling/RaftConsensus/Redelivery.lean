import RaftConsensus.Arrivals
import RaftConsensus.FigureTwo

/-!
# Stale, duplicated and reordered requests

Requests of one term may arrive twice, and an old short one after a new long one.  What a follower
has accepted it holds up to the end of the longest request among them (`reach`), as far as it
arrives.  Its log is its first one if that holds all this, and otherwise what it has seen of the
final log, cut there (`logAfter`); both are the same whatever the order in which the requests came
(`Delivered`).  So a late request finds nothing to change below the reach.

What a follower sees of the final log is its own log as long as the two agree, and then what arrives
(`Sight`).  If an entry is lost on the wire and the next one is not, the follower puts the next one
in its place.  When the request comes once more, the next one's own place is still free, and it is
appended again: then it matters how often a request arrives.

* `redelivery_harmless_iff`: deliveries are harmless exactly if nothing arrives behind an entry that
  is lost.
* `redelivery_harms`: with a key of 65536 bytes, they are not.
-/

namespace RaftConsensus

/-! ## One delivery -/

namespace Server

/-- **What an answer says.**  A refusal leaves the log and the commit index alone; a success means
that the loop has run, and then the commit index has followed. -/
theorem handleAppendEntries_cases {s : Server} {args : AppendEntriesArgs}
    {r : AppendEntriesReply × Server} (h : s.handleAppendEntries args = some r) :
    (r.1.success = false ∧ r.2.logEntries = s.logEntries ∧
        r.2.metadata.commitIndex = s.metadata.commitIndex) ∨
      (r.1.success = true ∧ s.metadata.currentTerm ≤ args.term ∧ s.prevMatches args = true ∧
        ∃ (s' : Server) (changed : Bool),
          reconcile s.logEntries false args.entries = some (s'.logEntries, changed) ∧
          s'.metadata.commitIndex = s.metadata.commitIndex ∧ r.2 = s'.followCommit args) := by
  have hcommit := recognizeLeader_commitIndex s args
  cases handleAppendEntries_way h with
  | old => exact Or.inl ⟨rfl, rfl, rfl⟩
  | mismatch => exact Or.inl ⟨rfl, recognizeLeader_logEntries s args, hcommit⟩
  | stored hterm hprev s' hs' =>
    obtain ⟨changed, hr⟩ := storeEntries_eq_some hs'
    rw [recognizeLeader_logEntries] at hr
    rw [prevMatches_recognizeLeader] at hprev
    have hcommit' : s'.metadata.commitIndex = s.metadata.commitIndex := by
      rw [storeEntries_metadata hs', hcommit]
    exact Or.inr ⟨rfl, Nat.not_lt.mp hterm, hprev, s', changed, hr, hcommit', rfl⟩

/-- A request whose entries carry indices is handled inside the log. -/
theorem handleAppendEntries_isSome {args : AppendEntriesArgs}
    (hindex : ∀ e ∈ args.entries, e.index ≠ 0) (s : Server) :
    (s.handleAppendEntries args).isSome := by
  unfold handleAppendEntries
  split
  · rfl
  · dsimp only
    split
    · rw [Option.isSome_map, storeEntries]
      have hsome := reconcile_isSome hindex (s.recognizeLeader args).logEntries false
      rcases hr : reconcile (s.recognizeLeader args).logEntries false args.entries with
        _ | ⟨log, _ | _⟩
      · rw [hr] at hsome
        exact absurd hsome (by simp)
      · rfl
      · rfl
    · rfl

/-- After a request that is not of an old term the server is in the term of the request, and says
so. -/
theorem handleAppendEntries_currentTerm {s : Server} {args : AppendEntriesArgs}
    {r : AppendEntriesReply × Server} (h : s.handleAppendEntries args = some r)
    (hterm : s.metadata.currentTerm ≤ args.term) :
    r.1.term = args.term ∧ r.2.metadata.currentTerm = args.term := by
  have hreply := handleAppendEntries_term h
  have hrec : (s.recognizeLeader args).metadata.currentTerm = args.term :=
    congrArg Replica.currentTerm (recognizeLeader_replica args hterm).1
  suffices hcur : r.2.metadata.currentTerm = args.term from ⟨hreply.trans hcur, hcur⟩
  cases handleAppendEntries_way h with
  | old hold => exact absurd hterm (by omega)
  | mismatch => exact hrec
  | stored hnew hprev s' hs' =>
    obtain ⟨es, hc⟩ := s'.followCommit_commits args
    rw [hc.currentTerm, storeEntries_metadata hs', hrec]

/-- Following the leader never lowers the commit index. -/
theorem le_followCommit (s : Server) (args : AppendEntriesArgs) :
    s.metadata.commitIndex ≤ (s.followCommit args).metadata.commitIndex := by
  unfold followCommit
  split
  · dsimp only
    split
    · next hlt =>
      rw [applyCommitted_commitIndex]
      exact hlt.le
    · exact le_rfl
  · exact le_rfl

/-- No request lowers the commit index. -/
theorem le_handleAppendEntries {s : Server} {args : AppendEntriesArgs}
    {r : AppendEntriesReply × Server} (h : s.handleAppendEntries args = some r) :
    s.metadata.commitIndex ≤ r.2.metadata.commitIndex := by
  rcases handleAppendEntries_cases h with ⟨-, -, hcommit⟩ | ⟨-, -, -, s', changed, -, hcommit, heq⟩
  · exact hcommit.ge
  · rw [← hcommit, heq]
    exact s'.le_followCommit args

/-- Requests that arrive one after another: the server after them, and those it has accepted. -/
def deliverAll : Server → List AppendEntriesArgs → Option (Server × List AppendEntriesArgs)
  | s, [] => some (s, [])
  | s, args :: rest => do
    let (reply, s) ← s.receiveRequest args
    let (s, accepted) ← deliverAll s rest
    return (s, if reply.success then args :: accepted else accepted)

end Server

namespace Snapshot

variable {L : List LogEntry} {T : ℕ} {args : AppendEntriesArgs} (h : Snapshot L T args)
  (hsize : Sendable L) (hL : Indexed L) (hlt : ∀ e ∈ L, e.term < 2 ^ 64)

include h hsize hL hlt

/-- The entries that arrive carry indices. -/
theorem index_ne_zero : ∀ x ∈ args.received.entries, x.index ≠ 0 := by
  intro x hx
  obtain ⟨e, he, hex⟩ := List.mem_filterMap.mp hx
  rw [h.part.entries] at he
  have hmem := List.mem_of_mem_take (List.mem_of_mem_drop he)
  obtain ⟨k, hk⟩ := List.mem_iff_getElem?.mp hmem
  rw [(decodeEntry_term_index (hlt e hmem) (hL.index_lt hsize e hmem) hex).2, hL k e hk]
  exact Nat.succ_ne_zero k

/-- So a snapshot is handled inside the log. -/
theorem receiveRequest_isSome (s : Server) : (s.receiveRequest args).isSome := by
  rw [h.receiveRequest_eq hsize]
  exact Server.handleAppendEntries_isSome (h.index_ne_zero hsize hL hlt) s

end Snapshot

/-! ## Any number of deliveries -/

/-- The greatest index that an accepted request covers. -/
def reach (accepted : List AppendEntriesArgs) : ℕ :=
  (accepted.map AppendEntriesArgs.lastSent).foldr max 0

/-- **What a follower is** after it has accepted some requests, in a form that does not speak of
their order. -/
structure Delivered (F D V : List LogEntry) (s : Server) (accepted : List AppendEntriesArgs) :
    Prop where
  log : s.logEntries = logAfter F V (reach (accepted.map AppendEntriesArgs.received))
  le : reach (accepted.map AppendEntriesArgs.received) ≤ V.length
  lost : ∀ a ∈ accepted, a.received.lastSent < a.lastSent → D.length ≤ a.received.lastSent

/-- The commit index of a follower that has accepted some requests. -/
def commitAfter (c : ℕ) (accepted : List AppendEntriesArgs) : ℕ :=
  (accepted.map AppendEntriesArgs.commits).foldr max c

section Greatest

variable {l l' : List ℕ} {c n : ℕ}

theorem foldr_max_le_iff : l.foldr max c ≤ n ↔ c ≤ n ∧ ∀ x ∈ l, x ≤ n := by
  induction l with
  | nil => simp
  | cons x l ih =>
    rw [List.foldr_cons, max_le_iff, ih, List.forall_mem_cons]
    constructor
    · rintro ⟨hx, hc, hl⟩
      exact ⟨hc, hx, hl⟩
    · rintro ⟨hc, hx, hl⟩
      exact ⟨hx, hc, hl⟩

theorem foldr_max_append_singleton (l : List ℕ) (c x : ℕ) :
    (l ++ [x]).foldr max c = max (l.foldr max c) x := by
  refine le_antisymm (foldr_max_le_iff.mpr ⟨?_, fun y hy => ?_⟩) (max_le ?_ ?_)
  · exact (foldr_max_le_iff.mp le_rfl).1.trans (le_max_left _ _)
  · rcases List.mem_append.mp hy with hy | hy
    · exact ((foldr_max_le_iff.mp le_rfl).2 y hy).trans (le_max_left _ _)
    · rw [List.mem_singleton.mp hy]
      exact le_max_right _ _
  · obtain ⟨hc, hall⟩ := foldr_max_le_iff.mp (le_refl ((l ++ [x]).foldr max c))
    exact foldr_max_le_iff.mpr ⟨hc, fun y hy => hall y (List.mem_append_left _ hy)⟩
  · exact (foldr_max_le_iff.mp le_rfl).2 x (List.mem_append_right _ (List.mem_singleton.mpr rfl))

/-- The greatest of some numbers depends only on which they are. -/
theorem foldr_max_congr (h : ∀ x, x ∈ l ↔ x ∈ l') : l.foldr max c = l'.foldr max c := by
  refine le_antisymm (foldr_max_le_iff.mpr ?_) (foldr_max_le_iff.mpr ?_)
  · obtain ⟨hc, hall⟩ := foldr_max_le_iff.mp (le_refl (l'.foldr max c))
    exact ⟨hc, fun x hx => hall x ((h x).mp hx)⟩
  · obtain ⟨hc, hall⟩ := foldr_max_le_iff.mp (le_refl (l.foldr max c))
    exact ⟨hc, fun x hx => hall x ((h x).mpr hx)⟩

end Greatest

theorem reach_received_append (accepted : List AppendEntriesArgs) (args : AppendEntriesArgs) :
    reach ((accepted ++ [args]).map AppendEntriesArgs.received) =
      max (reach (accepted.map AppendEntriesArgs.received)) args.received.lastSent := by
  rw [reach, List.map_append, List.map_append]
  exact foldr_max_append_singleton _ _ _

theorem commitAfter_received_append (c : ℕ) (accepted : List AppendEntriesArgs)
    (args : AppendEntriesArgs) :
    commitAfter c ((accepted ++ [args]).map AppendEntriesArgs.received) =
      max (commitAfter c (accepted.map AppendEntriesArgs.received)) args.received.commits := by
  rw [commitAfter, List.map_append, List.map_append]
  exact foldr_max_append_singleton _ _ _

namespace Delivered

variable {F L D V : List LogEntry} {T : ℕ} {s : Server} {accepted : List AppendEntriesArgs}
  {args : AppendEntriesArgs} {r : AppendEntriesReply × Server} (h : Delivered F D V s accepted)

include h

/-- One more request. -/
theorem handle (hD : Arrives L D) (hV : Sight F L D V) (hpart : Part L args)
    (hr : s.handleAppendEntries args.received = some r) :
    Delivered F D V r.2 (if r.1.success then accepted ++ [args] else accepted) := by
  classical
  rcases Server.handleAppendEntries_cases hr with
    ⟨hfail, hlog, -⟩ | ⟨hsucc, -, hprev, s', changed, hrecon, -, heq⟩
  · rw [if_neg (by rw [hfail]; simp)]
    exact ⟨hlog.trans h.log, h.le, h.lost⟩
  · obtain ⟨hlast, htake, hreads⟩ := hV.reads hpart h.log hprev
    have hle : args.prevLogIndex ≤ args.received.lastSent := Nat.le_add_right _ _
    have hmatch : Matching s.logEntries (V.take args.received.lastSent) := by
      rw [h.log]
      exact (hV.matching.logAfter _).take_right _
    have hfront : s.logEntries.take args.prevLogIndex =
        (V.take args.received.lastSent).take args.prevLogIndex := by
      rw [List.take_take, min_eq_left hle, htake]
    rw [hreads, Server.reconcile_drop (hV.indexed.take _) hmatch hfront] at hrecon
    have hlog : s'.logEntries = logAfter s.logEntries V args.received.lastSent := by
      rw [logAfter]
      split at hrecon
      · next hpre => rw [if_pos hpre, (Prod.mk.inj (Option.some.inj hrecon)).1]
      · next hnot => rw [if_neg hnot, (Prod.mk.inj (Option.some.inj hrecon)).1]
    obtain ⟨es, hc⟩ := s'.followCommit_commits args.received
    rw [if_pos hsucc]
    refine ⟨?_, ?_, fun a ha hlt => ?_⟩
    · rw [heq, hc.logEntries, hlog, h.log, reach_received_append]
      exact logAfter_logAfter h.le hlast
    · rw [reach_received_append]
      exact max_le h.le hlast
    · rcases List.mem_append.mp ha with ha | ha
      · exact h.lost a ha hlt
      · obtain rfl := List.mem_singleton.mp ha
        have hend := (hpart.lastSent_received hD).2
        have : a.prevLogIndex ≤ a.lastSent := Nat.le_add_right _ _
        omega

/-- **A request changes nothing below the reach.**  An entry there has arrived, or nothing more
arrives. -/
theorem keeps (hV : Sight F L D V)
    (h' : Delivered F D V r.2 (if r.1.success then accepted ++ [args] else accepted)) {k : ℕ}
    {e : LogEntry} (hk : k < reach accepted) (he : s.logEntries[k]? = some e) :
    r.2.logEntries[k]? = some e := by
  set n := reach (accepted.map AppendEntriesArgs.received) with hn
  obtain ⟨m, hm, hlog⟩ : ∃ m, m ≤ V.length ∧ r.2.logEntries = logAfter F V (max n m) := by
    have hlog := h'.log
    have hle := h'.le
    split at hlog
    · next hsucc =>
      rw [if_pos hsucc, reach_received_append] at hle
      rw [reach_received_append] at hlog
      exact ⟨_, (le_max_right _ _).trans hle, hlog⟩
    · exact ⟨0, Nat.zero_le _, by rw [hlog, Nat.max_zero]⟩
  rw [h.log] at he
  rw [hlog]
  rcases Nat.lt_or_ge k n with hlt | hge
  · have hpart : (logAfter F V (max n m)).take n = (logAfter F V n).take n := by
      rw [take_logAfter h.le]
      exact take_eq_of_take_eq (take_logAfter (max_le h.le hm)) (le_max_left n m)
    rw [getElem?_eq_of_take_eq hpart hlt, he]
  · -- a request that covers the entry did not arrive as a whole, so the rest of the log is lost
    obtain ⟨a, ha, hka⟩ : ∃ a ∈ accepted, k < a.lastSent := by
      by_contra hnone
      push Not at hnone
      refine absurd hk (Nat.not_lt.mpr (foldr_max_le_iff.mpr ⟨Nat.zero_le k, fun x hx => ?_⟩))
      obtain ⟨a, ha, rfl⟩ := List.mem_map.mp hx
      exact hnone a ha
    have hbelow : a.received.lastSent ≤ n :=
      (foldr_max_le_iff.mp (le_refl n)).2 _
        (List.mem_map_of_mem (List.mem_map_of_mem (f := AppendEntriesArgs.received) ha))
    have hend := h.lost a ha (by omega)
    rw [hV.stuck (hend.trans hbelow) h.le hm, he]

/-- The commit index follows the accepted requests. -/
theorem commitIndex (hF : Indexed F) (hD : Arrives L D) (hV : Sight F L D V)
    (h64 : L.length < 2 ^ 64) (hpart : Part L args)
    (hr : s.handleAppendEntries args.received = some r) {c : ℕ}
    (hc : s.metadata.commitIndex = commitAfter c (accepted.map AppendEntriesArgs.received)) :
    r.2.metadata.commitIndex = commitAfter c
      ((if r.1.success then accepted ++ [args] else accepted).map AppendEntriesArgs.received) := by
  have h' := h.handle hD hV hpart hr
  rcases Server.handleAppendEntries_cases hr with
    ⟨hfail, -, hcommit⟩ | ⟨hsucc, -, -, s', changed, -, hcommit, heq⟩
  · rw [if_neg (by rw [hfail]; simp), hcommit, hc]
  · obtain ⟨es, hcs⟩ := s'.followCommit_commits args.received
    rw [if_pos hsucc] at h' ⊢
    have hlog : s'.logEntries =
        logAfter F V (reach ((accepted ++ [args]).map AppendEntriesArgs.received)) := by
      rw [← h'.log, heq, hcs.logEntries]
    have hreach : args.received.lastSent ≤ s'.logEntries.length := by
      rw [hlog]
      refine le_trans ?_ (le_length_logAfter h'.le)
      rw [reach_received_append]
      exact le_max_right _ _
    have hlast : args.received.lastSent < 2 ^ 64 := by
      have hend := (hpart.lastSent_received hD).2
      have hlen := hpart.last_le
      have : args.prevLogIndex ≤ args.lastSent := Nat.le_add_right _ _
      omega
    rw [commitAfter_received_append, ← hc, ← hcommit, heq]
    rcases Server.followCommit_cases args.received (hlog ▸ hF.logAfter hV.indexed _) hreach hlast
        rfl with ⟨hlt, hfollow⟩ | ⟨hge, hfollow⟩
    · rw [hfollow, Server.raiseCommit_commitIndex]
      exact (max_eq_right hlt.le).symm
    · rw [hfollow]
      exact (max_eq_left hge).symm

/-- **Any number of requests.**  They are all handled inside the log. -/
theorem deliverAll (hL : Indexed L) (hlt : ∀ e ∈ L, e.term < 2 ^ 64) (hsize : Sendable L)
    (hD : Arrives L D) (hV : Sight F L D V) {msgs : List AppendEntriesArgs}
    (hmsgs : ∀ a ∈ msgs, Snapshot L T a) :
    ∃ s' accepted', s.deliverAll msgs = some (s', accepted') ∧
      Delivered F D V s' (accepted ++ accepted') ∧
        (Indexed F → ∀ c,
          s.metadata.commitIndex = commitAfter c (accepted.map AppendEntriesArgs.received) →
            s'.metadata.commitIndex =
              commitAfter c ((accepted ++ accepted').map AppendEntriesArgs.received)) := by
  induction msgs generalizing s accepted with
  | nil =>
    refine ⟨s, [], rfl, ?_, fun _ c hc => ?_⟩
    · rwa [List.append_nil]
    · rwa [List.append_nil]
  | cons args msgs ih =>
    have hsnap := hmsgs args List.mem_cons_self
    obtain ⟨⟨reply, s₁⟩, hr⟩ :=
      Option.isSome_iff_exists.mp (hsnap.receiveRequest_isSome hsize hL hlt s)
    have hr' := hr
    rw [hsnap.receiveRequest_eq hsize] at hr'
    have h₁ := h.handle hD hV hsnap.part hr'
    obtain ⟨s', rest, hrest, h', hcommit⟩ := ih h₁ fun a ha => hmsgs a (List.mem_cons_of_mem _ ha)
    have hsplit : accepted ++ (if reply.success then args :: rest else rest) =
        (if reply.success then accepted ++ [args] else accepted) ++ rest := by
      split
      · rw [List.append_assoc, List.singleton_append]
      · rfl
    refine ⟨s', if reply.success then args :: rest else rest, ?_, hsplit ▸ h', ?_⟩
    · simp only [Server.deliverAll, hr, hrest, Option.bind_eq_bind, Option.bind_some,
        Option.pure_def]
    · intro hF c hc
      rw [hsplit]
      have h64 : L.length < 2 ^ 64 := (Nat.lt_succ_self _).trans hsize.length_lt
      exact hcommit hF c (h.commitIndex hF hD hV h64 hsnap.part hr' hc)

end Delivered

theorem delivered_nil (s : Server) (D V : List LogEntry) : Delivered s.logEntries D V s [] :=
  ⟨(logAfter_zero _ _).symm, Nat.zero_le _, by simp⟩

/-- What was accepted counts only as a set. -/
theorem mem_map_congr {α β : Type*} {l l' : List α} (h : ∀ a, a ∈ l ↔ a ∈ l') (f : α → β) (x : β) :
    x ∈ l.map f ↔ x ∈ l'.map f := by
  simp only [List.mem_map, h]

/-- **Stale, duplicated and reordered requests are harmless.**  Deliver any requests that a leader
of term `T` built while its log grew to `L`, in any order and as often as you like, to a follower
whose log matches `L`.  Whatever arrives next, the follower keeps every entry up to the last one
that an accepted request covers, and its commit index does not go down.  And two sequences of
deliveries of which the same requests were accepted end with the same log and, if the follower's
entries carried their positions, with the same commit index. -/
def RedeliveryHarmless (L : List LogEntry) (T : ℕ) : Prop :=
  ∀ s : Server, Matching s.logEntries L → ∀ msgs, (∀ a ∈ msgs, Snapshot L T a) →
    ∃ s₁ accepted, s.deliverAll msgs = some (s₁, accepted) ∧
      (∀ args, Snapshot L T args → ∃ r, s₁.receiveRequest args = some r ∧
        (∀ k e, k < reach accepted → s₁.logEntries[k]? = some e → r.2.logEntries[k]? = some e) ∧
          s₁.metadata.commitIndex ≤ r.2.metadata.commitIndex) ∧
      (∀ msgs' s₂ accepted', (∀ a ∈ msgs', Snapshot L T a) →
        s.deliverAll msgs' = some (s₂, accepted') → (∀ a, a ∈ accepted ↔ a ∈ accepted') →
          s₁.logEntries = s₂.logEntries ∧
            (Indexed s.logEntries → s₁.metadata.commitIndex = s₂.metadata.commitIndex))

/-- A leader of term `T` whose log is `L` up to two entries behind `i`, and the last two of them are
what it sends to its peer. -/
def leaderOfPair (L : List LogEntry) (T i : ℕ) : Server :=
  { Server.new 1 [2] with
    role := .leader
    metadata := ⟨T, 1, 0, 0⟩
    logEntries := L.take (i + 2)
    nextIndex := fun _ => i + 1 }

/-- A follower that lacks the two. -/
def followerAt (L : List LogEntry) (i : ℕ) : Server :=
  { Server.new 2 [1] with logEntries := L.take i }

/-- The term of the entry before the two. -/
def termBefore (L : List LogEntry) (i : ℕ) : ℕ :=
  if i = 0 then 0 else (L[i - 1]?.map LogEntry.term).getD 0

/-- The request of that leader. -/
def pairRequest (L : List LogEntry) (T i : ℕ) : AppendEntriesArgs :=
  ⟨T, 1, i, termBefore L i, (L.take (i + 2)).drop i, 0⟩

theorem termAt_eq_termBefore {s : Server} {L : List LogEntry} {i : ℕ}
    (h : s.logEntries.take i = L.take i) : s.termAt i = termBefore L i := by
  unfold Server.termAt termBefore
  split
  · rfl
  · rw [getElem?_eq_of_take_eq h (by omega)]

theorem termBefore_lt {L : List LogEntry} (hlt : ∀ e ∈ L, e.term < 2 ^ 64) (i : ℕ) :
    termBefore L i < 2 ^ 64 := by
  unfold termBefore
  split
  · exact Nat.two_pow_pos 64
  · rcases he : L[i - 1]? with _ | e
    · exact Nat.two_pow_pos 64
    · exact hlt e (List.mem_of_getElem? he)

theorem snapshot_pairRequest {L : List LogEntry} {T i : ℕ} (hlt : ∀ e ∈ L, e.term < 2 ^ 64)
    (hsize : Sendable L) (hT : T < 2 ^ 64) (hi : i + 1 < L.length) :
    Snapshot L T (pairRequest L T i) := by
  have hlen := hsize.length_lt
  have hterm : (leaderOfPair L T i).termAt i = termBefore L i := termAt_eq_termBefore (by
    show (L.take (i + 2)).take i = L.take i
    rw [List.take_take, min_eq_left (by omega)])
  have hnext : max 1 ((leaderOfPair L T i).nextIndex 2) - 1 = i := by
    show max 1 (i + 1) - 1 = i
    omega
  refine ⟨leaderOfPair L T i, 2, ?_, rfl, List.take_prefix _ _, ?_, hT, ?_, ?_, ?_, ?_⟩
  · rw [Server.appendEntriesArgs, if_neg (by simp [leaderOfPair])]
    dsimp only
    rw [hnext, hterm]
    rfl
  · show i + 1 ≤ (L.take (i + 2)).length + 1
    rw [List.length_take]
    omega
  · exact Nat.one_lt_two_pow (by decide)
  · show i < 2 ^ 64
    omega
  · exact termBefore_lt hlt i
  · exact Nat.two_pow_pos 64

section Harmless

variable {L : List LogEntry} {T : ℕ} (hL : Indexed L) (hlt : ∀ e ∈ L, e.term < 2 ^ 64)
  (hsize : Sendable L)

include hL hlt hsize

/-- **Enough for deliveries to be harmless**: nothing arrives behind an entry that is lost. -/
theorem LostLast.harmless (hlost : LostLast L) : RedeliveryHarmless L T := by
  have hD := hlost.arrives fun e he => ⟨hlt e he, hL.index_lt hsize e he⟩
  intro s hmatch msgs hmsgs
  obtain ⟨V, hV⟩ := hmatch.exists_sight hL hD
  have hnil := delivered_nil s (L.filterMap decodeEntry) V
  obtain ⟨s₁, accepted, hall, h₁, hcommit⟩ := hnil.deliverAll hL hlt hsize hD hV hmsgs
  rw [List.nil_append] at h₁ hcommit
  refine ⟨s₁, accepted, hall, fun args hsnap => ?_, ?_⟩
  · obtain ⟨r, hr⟩ := Option.isSome_iff_exists.mp (hsnap.receiveRequest_isSome hsize hL hlt s₁)
    have hr' := hr
    rw [hsnap.receiveRequest_eq hsize] at hr'
    exact ⟨r, hr, fun k e hk he => h₁.keeps hV (h₁.handle hD hV hsnap.part hr') hk he,
      Server.le_handleAppendEntries hr'⟩
  · intro msgs' s₂ accepted' hmsgs' hall' hsame
    obtain ⟨s₂', accepted'', hall'', h₂, hcommit'⟩ := hnil.deliverAll hL hlt hsize hD hV hmsgs'
    rw [hall'] at hall''
    obtain ⟨rfl, rfl⟩ := Prod.mk.inj (Option.some.inj hall'')
    rw [List.nil_append] at h₂ hcommit'
    have harrived := mem_map_congr hsame AppendEntriesArgs.received
    refine ⟨?_, fun hF => ?_⟩
    · rw [h₁.log, h₂.log, show reach _ = reach _ from foldr_max_congr (mem_map_congr harrived _)]
    · rw [hcommit hF s.metadata.commitIndex rfl, hcommit' hF s.metadata.commitIndex rfl]
      exact foldr_max_congr (mem_map_congr harrived _)

variable {i : ℕ} {e e' x : LogEntry} (he : L[i]? = some e) (he' : L[i + 1]? = some e')
  (hlost : decodeEntry e = none) (hx : decodeEntry e' = some x) (hT : T < 2 ^ 64)

include he he' hlost hx hT

/-- **The entry behind a lost one is appended** by every follower that lacks the place of it. -/
theorem appends_of_lost {s : Server} (hs : s.logEntries.take i = L.take i)
    (hlen : s.logEntries.length ≤ i + 1) (hterm : s.metadata.currentTerm ≤ T) :
    ∃ r, s.receiveRequest (pairRequest L T i) = some r ∧ r.1.success = true ∧
      r.2.logEntries = s.logEntries ++ [x] ∧ r.2.metadata.currentTerm ≤ T := by
  obtain ⟨hi, rfl⟩ := List.getElem?_eq_some_iff.mp he
  obtain ⟨hi', rfl⟩ := List.getElem?_eq_some_iff.mp he'
  have hsnap := snapshot_pairRequest hlt hsize hT hi'
  have hmem := List.mem_of_getElem? he'
  have hindex : x.index = i + 2 := by
    rw [(decodeEntry_term_index (hlt _ hmem) (hL.index_lt hsize _ hmem) hx).2, hL _ _ he']
  have htwo : (L.take (i + 2)).drop i = [L[i], L[i + 1]] := by
    rw [List.drop_eq_getElem_cons (by rw [List.length_take]; omega),
      List.drop_eq_getElem_cons (by rw [List.length_take]; omega),
      List.drop_eq_nil_of_le (by rw [List.length_take]; omega), List.getElem_take,
      List.getElem_take]
  have hpair : (pairRequest L T i).received.entries = [x] := by
    show ((L.take (i + 2)).drop i).filterMap decodeEntry = [x]
    rw [htwo, List.filterMap_cons_none hlost, List.filterMap_cons_some hx, List.filterMap_nil]
  have hprev : s.prevMatches (pairRequest L T i).received = true := by
    have hle := congrArg List.length hs
    rw [List.length_take, List.length_take_of_le (by omega : i ≤ L.length)] at hle
    have hlong : i ≤ s.logEntries.length := le_of_eq_of_le hle.symm (min_le_right _ _)
    show (decide (i = 0) || (decide (i ≤ s.logEntries.length) &&
      decide (s.termAt i = termBefore L i))) = true
    rw [termAt_eq_termBefore hs, decide_eq_true hlong, decide_eq_true rfl, Bool.and_self,
      Bool.or_true]
  have hrecon : Server.reconcile s.logEntries false (pairRequest L T i).received.entries =
      some (s.logEntries ++ [x], true) := by
    rw [hpair, Server.reconcile, if_neg (by rw [hindex]; omega), Server.reconcile]
  obtain ⟨r, hr, hsucc, hlog⟩ := Server.handleAppendEntries_accept hterm hprev hrecon
  exact ⟨r, by rw [hsnap.receiveRequest_eq hsize, hr], hsucc, hlog,
    (Server.handleAppendEntries_currentTerm hr hterm).2.le⟩

/-- **Then it matters how often a request arrives**: the next entry is appended in the place of the
lost one, and appended again. -/
theorem redelivery_of_lost : ¬ RedeliveryHarmless L T := by
  intro hharmless
  have hi := (List.getElem?_eq_some_iff.mp he').1
  have hlen : (L.take i).length = i := List.length_take_of_le (by omega)
  have htwice : (L.take i).take i = L.take i := by rw [List.take_take, min_self]
  have happends := fun {s : Server} => appends_of_lost (s := s) hL hlt hsize he he' hlost hx hT
  obtain ⟨r₁, hr₁, hsucc₁, hlog₁, hterm₁⟩ := happends (s := followerAt L i) htwice
    (by show (L.take i).length ≤ i + 1; omega) (Nat.zero_le T)
  rw [show (followerAt L i).logEntries = L.take i from rfl] at hlog₁
  obtain ⟨r₂, hr₂, hsucc₂, hlog₂, -⟩ := happends (s := r₁.2)
    (by rw [hlog₁, List.take_append_of_le_length hlen.ge, htwice])
    (by rw [hlog₁, List.length_append, hlen, List.length_singleton]) hterm₁
  have hone : (followerAt L i).deliverAll [pairRequest L T i] =
      some (r₁.2, [pairRequest L T i]) := by
    simp [Server.deliverAll, hr₁, hsucc₁]
  have htwo : (followerAt L i).deliverAll [pairRequest L T i, pairRequest L T i] =
      some (r₂.2, [pairRequest L T i, pairRequest L T i]) := by
    simp [Server.deliverAll, hr₁, hsucc₁, hr₂, hsucc₂]
  have hsnap := snapshot_pairRequest hlt hsize hT hi
  obtain ⟨s₁, accepted, hall, -, hsame⟩ := hharmless (followerAt L i)
    ((Matching.refl L).take_left i) [pairRequest L T i] (by simpa using hsnap)
  rw [hone] at hall
  obtain ⟨rfl, rfl⟩ := Prod.mk.inj (Option.some.inj hall)
  obtain ⟨hlog, -⟩ := hsame _ _ _ (by simpa using hsnap) htwo (by simp)
  rw [hlog₂] at hlog
  exact absurd hlog (by simp)

end Harmless

/-- **When deliveries are harmless.**  Below 4 GiB they are exactly if no entry arrives behind one
that is lost, and so whenever every key and every value fits its length field. -/
theorem redelivery_harmless_iff {L : List LogEntry} {T : ℕ} (hL : Indexed L)
    (hlt : ∀ e ∈ L, e.term < 2 ^ 64) (hT : T < 2 ^ 64) (hsize : Sendable L) :
    (RedeliveryHarmless L T ↔ LostLast L) ∧
      ((∀ e ∈ L, e.WellFormed) → RedeliveryHarmless L T) := by
  refine ⟨⟨fun hharmless => lostLast_of_adjacent fun i hi hlost => ?_,
    fun hlost => hlost.harmless hL hlt hsize⟩,
    fun hwf => (lostLast_of_wellFormed hwf).harmless hL hlt hsize⟩
  by_contra harrives
  obtain ⟨x, hx⟩ := Option.ne_none_iff_exists'.mp harrives
  exact redelivery_of_lost hL hlt hsize (List.getElem?_eq_getElem (by omega))
    (List.getElem?_eq_getElem hi) hlost hx hT hharmless

/-- The log of a leader of term 2. -/
def growingLog : List LogEntry := [putEntry 1 1 1, putEntry 2 2 2, putEntry 2 3 3]

/-- The leader when its log had `n` entries, `c` of them committed, and its next index is 2. -/
def leaderWith (n c : ℕ) : Server :=
  { Server.new 1 [2] with
    role := .leader
    metadata := ⟨2, 1, c, c⟩
    logEntries := growingLog.take n
    nextIndex := fun _ => 2 }

/-- The request of that leader. -/
def requestWith (n c : ℕ) : AppendEntriesArgs :=
  ⟨2, 1, 1, 1, (growingLog.take n).drop 1, c⟩

theorem bounded_requestWith {n c : ℕ} (hc : c < 2 ^ 64) : (requestWith n c).Bounded := by
  refine ⟨?_, ?_, ?_, ?_, hc⟩ <;> simp [requestWith]

theorem snapshot_requestWith {n c : ℕ} (hn : n = 2 ∨ n = 3) (hc : c < 2 ^ 64) :
    Snapshot growingLog 2 (requestWith n c) := by
  refine ⟨leaderWith n c, 2, ?_, rfl, List.take_prefix _ _, ?_, bounded_requestWith hc⟩
  · rcases hn with rfl | rfl <;> rfl
  · rcases hn with rfl | rfl
    · exact Nat.le_succ 2
    · exact Nat.le_of_lt (Nat.lt_succ_of_lt (Nat.lt_succ_self 2))

theorem indexed_growingLog : Indexed growingLog :=
  Indexed.append_singleton (Indexed.append_singleton (Indexed.append_singleton Indexed.nil rfl) rfl)
    rfl

theorem sendable_growingLog : Sendable growingLog := by
  show 44 + (growingLog.flatMap entryBlob).length < 2 ^ 32
  decide +kernel

theorem wellFormed_putEntry {term index : ℕ} (ht : term < 2 ^ 64) (hi : index < 2 ^ 64)
    (v : UInt8) : (putEntry term index v).WellFormed :=
  ⟨Request.wellFormed_command (r := .put [1] [v])
    ⟨by simp [Request.command], by simp [Request.command]⟩, ht, hi⟩

theorem wellFormed_growingLog : ∀ e ∈ growingLog, e.WellFormed := by
  intro e he
  simp only [growingLog, List.mem_cons, List.not_mem_nil, or_false] at he
  rcases he with rfl | rfl | rfl <;> exact wellFormed_putEntry (by decide) (by decide) _

/-- A follower with a conflicting second entry. -/
def conflictingFollower : Server :=
  { Server.new 2 [1] with
    metadata := ⟨1, 0, 1, 1⟩
    logEntries := [putEntry 1 1 1, putEntry 1 2 9] }

/-- The long request first, or the short one, twice: the follower ends with the same log and the
same commit index. -/
theorem redelivery_harmless_reordered :
    ∃ s₁ s₂ accepted accepted',
      conflictingFollower.deliverAll [requestWith 3 3, requestWith 2 1] = some (s₁, accepted) ∧
        conflictingFollower.deliverAll [requestWith 2 1, requestWith 3 3, requestWith 2 1] =
            some (s₂, accepted') ∧
          s₁.logEntries = s₂.logEntries ∧ s₁.metadata.commitIndex = s₂.metadata.commitIndex := by
  have hF : Indexed conflictingFollower.logEntries :=
    Indexed.append_singleton (Indexed.append_singleton Indexed.nil rfl) rfl
  have hmatch : Matching conflictingFollower.logEntries growingLog := by
    rintro (_ | _ | k) e e' hk hk' hterm
    · rfl
    · rw [← Option.some.inj hk, ← Option.some.inj hk'] at hterm
      exact absurd hterm (by decide)
    · exact absurd hk (by simp [conflictingFollower])
  have hlong := snapshot_requestWith (Or.inr rfl) (c := 3) (by decide)
  have hshort := snapshot_requestWith (Or.inl rfl) (c := 1) (by decide)
  have hharmless : RedeliveryHarmless growingLog 2 :=
    (redelivery_harmless_iff indexed_growingLog (fun e he => (wellFormed_growingLog e he).term_lt)
      (by decide) sendable_growingLog).2 wellFormed_growingLog
  obtain ⟨s₁, accepted, hall, -, hsame⟩ := hharmless conflictingFollower hmatch
    [requestWith 3 3, requestWith 2 1] (by
      rintro a (_ | ⟨_, _ | ⟨_, ha⟩⟩)
      · exact hlong
      · exact hshort
      · cases ha)
  have haccepted : (conflictingFollower.deliverAll
      [requestWith 3 3, requestWith 2 1]).map Prod.snd =
        some [requestWith 3 3, requestWith 2 1] := by decide +kernel
  have haccepted' : (conflictingFollower.deliverAll
      [requestWith 2 1, requestWith 3 3, requestWith 2 1]).map Prod.snd =
        some [requestWith 2 1, requestWith 3 3, requestWith 2 1] := by decide +kernel
  obtain ⟨⟨s₂, accepted'⟩, hall', hacc'⟩ := Option.map_eq_some_iff.mp haccepted'
  rw [hall] at haccepted
  obtain rfl : accepted = _ := Option.some.inj haccepted
  obtain rfl : accepted' = _ := hacc'
  have hmsgs : ∀ a ∈ [requestWith 2 1, requestWith 3 3, requestWith 2 1],
      Snapshot growingLog 2 a := by
    rintro a (_ | ⟨_, _ | ⟨_, _ | ⟨_, ha⟩⟩⟩)
    · exact hshort
    · exact hlong
    · exact hshort
    · cases ha
  obtain ⟨hlog, hcommit⟩ := hsame _ s₂ _ hmsgs hall' fun a => by
    simp only [List.mem_cons, List.not_mem_nil, or_false]
    constructor
    · rintro (h | h)
      · exact Or.inr (Or.inl h)
      · exact Or.inl h
    · rintro (h | h | h)
      · exact Or.inr h
      · exact Or.inl h
      · exact Or.inr h
  exact ⟨s₁, s₂, _, _, hall, hall', hlog, hcommit hF⟩

/-- An entry that sets a key whose first four bytes are `a`. -/
def cutEntry (rest : Bytes) : LogEntry :=
  ⟨1, 2, (Request.put (97 :: 97 :: 97 :: 97 :: rest) []).command⟩

/-- What the parser takes for an entry when the length of that key is cut to 0. -/
def cutHead : Bytes := bigEndian 8 1 ++ bigEndian 8 2 ++ [1, 0, 0, 0, 0, 97, 97, 97, 97]

/-- **With a key of 65536 bytes it is lost.**  The key length is cut to 0, and so the first four
bytes of the key are read as a checksum. -/
theorem decodeEntry_cutEntry {rest : Bytes} (h : rest.length = 65532) :
    decodeEntry (cutEntry rest) = none := by
  rcases hx : decodeEntry (cutEntry rest) with _ | x
  · rfl
  exfalso
  obtain ⟨pos', hparse⟩ := parseEntry_of_decodeEntry hx
  obtain ⟨keyLen, valLen, hkey, hval, hpos, -⟩ := parseEntry_size hparse
  obtain ⟨-, -, hkey', hval'⟩ := read_header [] [] (cutEntry rest)
  simp only [List.nil_append, List.append_nil, List.length_nil] at hkey' hval'
  rw [hkey] at hkey'
  rw [hval] at hval'
  have hkeyLen : keyLen = 0 := by
    rw [Option.some.inj hkey']
    show (rest.length + 1 + 1 + 1 + 1) % 65536 % 65536 = 0
    rw [h]
  have hvalLen : valLen = 0 := Option.some.inj hval'
  obtain rfl : pos' = 25 := by omega
  have htake := take_of_parseEntry hparse
  rw [List.take_zero, List.nil_append] at htake
  have hhead : (serializeLogEntry (cutEntry rest)).take 25 = cutHead := by
    simp [cutHead, serializeLogEntry, LogEntry.payload, cutEntry, Request.command, serialize, h,
      bigEndian]
  have hread := @deserializeLogEntry_serializeLog [x] (by simpa using wellFormed_of_decodeEntry hx)
  rw [serializeLog_singleton, ← htake, hhead] at hread
  have hbad : deserializeLogEntry cutHead = some ([], 0) := by decide +kernel
  rw [hbad] at hread
  exact absurd hread (by simp)

/-- A log with an entry that is lost between two that are not. -/
def lossyLog (rest : Bytes) : List LogEntry := [putEntry 1 1 1, cutEntry rest, putEntry 1 3 3]

theorem indexed_lossyLog (rest : Bytes) : Indexed (lossyLog rest) :=
  Indexed.append_singleton (Indexed.append_singleton (Indexed.append_singleton Indexed.nil rfl) rfl)
    rfl

theorem term_lt_of_mem_lossyLog {rest : Bytes} {e : LogEntry} (he : e ∈ lossyLog rest) :
    e.term < 2 ^ 64 := by
  simp only [lossyLog, List.mem_cons, List.not_mem_nil, or_false] at he
  rcases he with rfl | rfl | rfl <;> exact Nat.one_lt_two_pow (by decide)

theorem sendable_lossyLog {rest : Bytes} (h : rest.length = 65532) : Sendable (lossyLog rest) := by
  have hflat : (lossyLog rest).flatMap entryBlob =
      entryBlob (putEntry 1 1 1) ++ (entryBlob (cutEntry rest) ++ entryBlob (putEntry 1 3 3)) := by
    simp only [lossyLog, List.flatMap_cons, List.flatMap_nil, List.append_nil]
  have hlen : (entryBlob (cutEntry rest)).length = 4 + (25 + (rest.length + 4) + 0) := by
    rw [length_entryBlob, length_serializeLogEntry]
    rfl
  have hput : ∀ i v, (entryBlob (putEntry 1 i v)).length = 4 + (25 + 1 + 1) := by
    intro i v
    rw [length_entryBlob, length_serializeLogEntry]
    rfl
  rw [Sendable, hflat, List.length_append, List.length_append, hlen, hput, hput, h]
  decide

/-- **Deliveries are not harmless** when a client has set a key of 65536 bytes. -/
theorem redelivery_harms :
    Indexed (lossyLog (List.replicate 65532 97)) ∧ Sendable (lossyLog (List.replicate 65532 97)) ∧
      ¬ RedeliveryHarmless (lossyLog (List.replicate 65532 97)) 1 := by
  have hharms : ∀ rest : Bytes, rest.length = 65532 → ¬ RedeliveryHarmless (lossyLog rest) 1 := by
    intro rest hrest
    have harrives := decodeEntry_of_wellFormed (@wellFormed_putEntry 1 3 (by decide) (by decide) 3)
    exact redelivery_of_lost (i := 1) (indexed_lossyLog rest)
      (fun e he => term_lt_of_mem_lossyLog he) (sendable_lossyLog hrest) rfl rfl
      (decodeEntry_cutEntry hrest) harrives (Nat.one_lt_two_pow (by decide))
  exact ⟨indexed_lossyLog _, sendable_lossyLog List.length_replicate,
    hharms _ List.length_replicate⟩

end RaftConsensus
