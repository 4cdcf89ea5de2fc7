import RaftConsensus.Commit

/-!
# What `AppendEntries` does to a log

`reconcile` is the loop of steps 4 and 5 of `handleAppendEntries`.  On arbitrary entries it
can do a great deal of damage: it trusts the index that an entry carries.  On a suffix of a
log that matches the old one it does what Raft asks for.  The old log stays if it holds all
of the new one, and becomes the new one otherwise (`reconcile_drop`).

Two things are needed for that, and both are invariants of the whole protocol rather than
of the loop: the entry at position `i` carries index `i` (`Indexed`), and the two logs are
the same up to any position at which their terms agree (`Matching`).
-/

namespace RaftConsensus

/-- The entry at position `i`, counted from one, carries index `i`. -/
def Indexed (log : List LogEntry) : Prop := ∀ k e, log[k]? = some e → e.index = k + 1

/-- Log matching: entries of one term at one position have the same entries before them. -/
def Matching (l l' : List LogEntry) : Prop :=
  ∀ k e e', l[k]? = some e → l'[k]? = some e' → e.term = e'.term →
    l.take (k + 1) = l'.take (k + 1)

theorem Indexed.nil : Indexed [] := by
  intro k e h
  simp at h

theorem Matching.nil (l : List LogEntry) : Matching [] l := by
  intro k e e' h
  simp at h

theorem Indexed.take {log : List LogEntry} (h : Indexed log) (n : ℕ) : Indexed (log.take n) := by
  intro k e hk
  rcases lt_or_ge k n with hkn | hkn
  · rw [List.getElem?_take_of_lt hkn] at hk
    exact h k e hk
  · rw [List.getElem?_eq_none (by rw [List.length_take]; omega)] at hk
    exact absurd hk (by simp)

theorem Indexed.append_singleton {log : List LogEntry} (h : Indexed log) {e : LogEntry}
    (he : e.index = log.length + 1) : Indexed (log ++ [e]) := by
  intro k x hk
  rcases lt_trichotomy k log.length with hlt | rfl | hgt
  · rw [List.getElem?_append_left hlt] at hk
    exact h k x hk
  · rw [List.getElem?_append_right le_rfl, Nat.sub_self, List.getElem?_cons_zero] at hk
    rw [← Option.some.inj hk, he]
  · rw [List.getElem?_eq_none (by rw [List.length_append, List.length_singleton]; omega)] at hk
    exact absurd hk (by simp)

/-- In an indexed log the last index is the length. -/
theorem Indexed.getLastLogIndex {s : Server} (h : Indexed s.logEntries) :
    s.getLastLogIndex = s.logEntries.length := by
  rw [Server.getLastLogIndex, List.getLast?_eq_getElem?]
  rcases hk : s.logEntries[s.logEntries.length - 1]? with _ | e
  · have hlen := List.getElem?_eq_none_iff.mp hk
    show 0 = s.logEntries.length
    omega
  · have hlt := (List.getElem?_eq_some_iff.mp hk).1
    have hindex := h _ e hk
    show e.index = s.logEntries.length
    omega

theorem Matching.symm {l l' : List LogEntry} (h : Matching l l') : Matching l' l :=
  fun k e e' hk hk' ht => (h k e' e hk' hk ht.symm).symm

/-- A log that matches another holds it up to a common entry. -/
theorem Matching.take_eq {l l' : List LogEntry} (h : Matching l l') {k : ℕ} {e : LogEntry}
    (hk : l[k]? = some e) (hk' : l'[k]? = some e) : l.take (k + 1) = l'.take (k + 1) :=
  h k e e hk hk' rfl

/-- What agrees up to `k` agrees at each position before. -/
theorem getElem?_eq_of_take_eq {α : Type*} {l l' : List α} {j k : ℕ} (h : l.take k = l'.take k)
    (hj : j < k) : l[j]? = l'[j]? := by
  rw [← List.getElem?_take_of_lt hj, h, List.getElem?_take_of_lt hj]

theorem take_eq_of_take_eq {α : Type*} {l l' : List α} {j k : ℕ} (h : l.take k = l'.take k)
    (hj : j ≤ k) : l.take j = l'.take j := by
  have := congrArg (List.take j) h
  rwa [List.take_take, List.take_take, min_eq_left hj] at this

namespace Server

/-! ## Entries that the log holds already -/

/-- An entry whose place is taken by one of its term changes nothing. -/
theorem reconcile_cons_held {log : List LogEntry} {x e : LogEntry} {k : ℕ}
    (hk : log[k]? = some e) (hindex : x.index = k + 1) (hterm : x.term = e.term) (b : Bool)
    (entries : List LogEntry) : reconcile log b (x :: entries) = reconcile log b entries := by
  have hlt := (List.getElem?_eq_some_iff.mp hk).1
  rw [reconcile, if_pos (by omega), if_neg (by omega), if_neg]
  rw [hindex, Nat.add_sub_cancel, hk, hterm, not_not, Option.map_some]

/-! ## The rest of a log -/

/-- Once the log is a prefix of the new one, the rest is appended. -/
theorem reconcile_take {L : List LogEntry} (hL : Indexed L) (m : ℕ) :
    reconcile (L.take m) true (L.drop m) = some (L, true) := by
  rcases Nat.lt_or_ge m L.length with hm | hm
  · have hget : L[m]? = some L[m] := List.getElem?_eq_getElem hm
    have hlen : (L.take m).length = m := List.length_take_of_le hm.le
    have hindex := hL m _ hget
    have htake : L.take m ++ [L[m]] = L.take (m + 1) := (List.take_succ_eq_append_getElem hm).symm
    rw [List.drop_eq_getElem_cons hm, reconcile, if_neg (by omega), htake]
    exact reconcile_take hL (m + 1)
  · rw [List.drop_eq_nil_of_le hm, List.take_of_length_le hm, reconcile]
termination_by L.length - m

/-- **A suffix of a matching log.**  Where the old log agrees with the new one up to `m`, the
entries after `m` leave it alone if it holds the new one, and make it the new one if not. -/
theorem reconcile_drop {F L : List LogEntry} (hL : Indexed L) (hmatch : Matching F L) {m : ℕ}
    (hm : F.take m = L.take m) (b : Bool) [Decidable (L <+: F)] :
    reconcile F b (L.drop m) = if L <+: F then some (F, b) else some (L, true) := by
  rcases Nat.lt_or_ge m L.length with hlt | hge
  · have hget : L[m]? = some L[m] := List.getElem?_eq_getElem hlt
    have hindex := hL m _ hget
    have htake : L.take m ++ [L[m]] = L.take (m + 1) := (List.take_succ_eq_append_getElem hlt).symm
    have hsome : ∀ {e : LogEntry}, L <+: F → F[m]? = some e → e = L[m] := by
      intro e hpre he
      obtain ⟨r, rfl⟩ := hpre
      rw [List.getElem?_append_left hlt, hget] at he
      exact (Option.some.inj he).symm
    rw [List.drop_eq_getElem_cons hlt]
    rcases hF : F[m]? with _ | e
    · -- the old log ends here
      have hlen : F.length ≤ m := List.getElem?_eq_none_iff.mp hF
      have hnot : ¬ L <+: F := fun hpre => by
        have := hpre.length_le
        omega
      rw [if_neg hnot, reconcile, if_neg (by omega)]
      rw [List.take_of_length_le hlen] at hm
      rw [hm, htake]
      exact reconcile_take hL (m + 1)
    · have hlen := (List.getElem?_eq_some_iff.mp hF).1
      by_cases hterm : e.term = L[m].term
      · rw [reconcile_cons_held hF hindex hterm.symm]
        exact reconcile_drop hL hmatch (hmatch m e _ hF hget hterm) b
      · -- a conflict
        have hnot : ¬ L <+: F := fun hpre => hterm (by rw [hsome hpre hF])
        have hconflict : F[m]?.map LogEntry.term ≠ some L[m].term := by
          rw [hF, Option.map_some]
          exact fun h => hterm (Option.some.inj h)
        rw [if_neg hnot, reconcile, if_pos (by omega), if_neg (by omega), hindex,
          Nat.add_sub_cancel, if_pos hconflict, hm, htake]
        exact reconcile_take hL (m + 1)
  · rw [List.take_of_length_le hge] at hm
    have hpre : L <+: F := by
      rw [← hm]
      exact List.take_prefix m F
    rw [List.drop_eq_nil_of_le hge, reconcile, if_pos hpre]
termination_by L.length - m

/-! ## What comes out -/

/-- What stands somewhere after `reconcile` stood there before, or came in. -/
theorem getElem?_reconcile {log log' entries : List LogEntry} {b b' : Bool}
    (h : reconcile log b entries = some (log', b')) {k : ℕ} {e : LogEntry}
    (he : log'[k]? = some e) : log[k]? = some e ∨ e ∈ entries := by
  induction entries generalizing log b with
  | nil =>
    rw [reconcile, Option.some.injEq, Prod.mk.injEq] at h
    exact Or.inl (h.1 ▸ he)
  | cons x entries ih =>
    -- the log after the first entry
    have hstep : ∀ {n : ℕ} {b : Bool}, reconcile (log.take n ++ [x]) b entries = some (log', b') →
        log[k]? = some e ∨ e ∈ x :: entries := by
      intro n b hr
      rcases ih hr with hold | hmem
      · rcases Nat.lt_or_ge k (log.take n).length with hlt | hge
        · rw [List.getElem?_append_left hlt, List.getElem?_take_of_lt] at hold
          · exact Or.inl hold
          · rw [List.length_take] at hlt
            omega
        · rw [List.getElem?_append_right hge] at hold
          exact Or.inr (List.mem_cons.mpr (Or.inl (List.mem_singleton.mp
            (List.mem_of_getElem? hold))))
      · exact Or.inr (List.mem_cons_of_mem x hmem)
    rw [reconcile] at h
    split at h
    · split at h
      · exact absurd h (by simp)
      split at h
      · exact hstep h
      · rcases ih h with hold | hmem
        · exact Or.inl hold
        · exact Or.inr (List.mem_cons_of_mem x hmem)
    · rw [← List.take_length (l := log)] at h
      exact hstep h

/-- What is in the log after `reconcile` was in it or came in. -/
theorem mem_reconcile {log log' entries : List LogEntry} {b b' : Bool}
    (h : reconcile log b entries = some (log', b')) {e : LogEntry} (he : e ∈ log') :
    e ∈ log ∨ e ∈ entries := by
  obtain ⟨k, hk⟩ := List.mem_iff_getElem?.mp he
  rcases getElem?_reconcile h hk with hold | hmem
  · exact Or.inl (List.mem_of_getElem? hold)
  · exact Or.inr hmem

/-- A log that was not changed is the old one. -/
theorem reconcile_unchanged {log log' entries : List LogEntry} {b : Bool}
    (h : reconcile log b entries = some (log', false)) : log' = log ∧ b = false := by
  induction entries generalizing log b with
  | nil =>
    rw [reconcile, Option.some.injEq, Prod.mk.injEq] at h
    exact ⟨h.1.symm, h.2⟩
  | cons x entries ih =>
    rw [reconcile] at h
    split at h
    · split at h
      · exact absurd h (by simp)
      split at h
      · exact absurd (ih h).2 (by simp)
      · exact ih h
    · exact absurd (ih h).2 (by simp)

/-- Entries that carry an index never leave the log. -/
theorem reconcile_isSome {entries : List LogEntry} (h : ∀ e ∈ entries, e.index ≠ 0)
    (log : List LogEntry) (b : Bool) : (reconcile log b entries).isSome := by
  induction entries generalizing log b with
  | nil => rfl
  | cons x entries ih =>
    have hrest := fun e he => h e (List.mem_cons_of_mem x he)
    rw [reconcile]
    split
    · rw [if_neg (h x List.mem_cons_self)]
      split
      · exact ih hrest _ _
      · exact ih hrest _ _
    · exact ih hrest _ _

/-! ## The handler -/

theorem recognizeLeader_logEntries (s : Server) (args : AppendEntriesArgs) :
    (s.recognizeLeader args).logEntries = s.logEntries := by
  unfold recognizeLeader
  dsimp only
  split <;> rfl

theorem recognizeLeader_commitIndex (s : Server) (args : AppendEntriesArgs) :
    (s.recognizeLeader args).metadata.commitIndex = s.metadata.commitIndex := by
  unfold recognizeLeader
  dsimp only
  split <;> rfl

theorem prevMatches_recognizeLeader (s : Server) (args : AppendEntriesArgs) :
    (s.recognizeLeader args).prevMatches args = s.prevMatches args := by
  rw [prevMatches, prevMatches, termAt, termAt, recognizeLeader_logEntries]

/-- A server whose log is the one that `reconcile` makes. -/
theorem storeEntries_eq_some {s s' : Server} {entries : List LogEntry}
    (h : s.storeEntries entries = some s') :
    ∃ changed, reconcile s.logEntries false entries = some (s'.logEntries, changed) := by
  cases storeEntries_way h with
  | same log hlog => exact ⟨false, hlog⟩
  | rewritten log hlog => exact ⟨true, hlog⟩

/-- **When a request is accepted**: the term is not old, the log has the entry before the new
ones, and the loop has run. -/
theorem handleAppendEntries_success {s : Server} {args : AppendEntriesArgs}
    {r : AppendEntriesReply × Server} (h : s.handleAppendEntries args = some r)
    (hs : r.1.success = true) :
    s.metadata.currentTerm ≤ args.term ∧ s.prevMatches args = true ∧
      ∃ changed, reconcile s.logEntries false args.entries = some (r.2.logEntries, changed) := by
  cases handleAppendEntries_way h with
  | old | mismatch => exact absurd hs (by simp)
  | stored hterm hprev s' hs' =>
    obtain ⟨changed, hr⟩ := storeEntries_eq_some hs'
    obtain ⟨es, hc⟩ := s'.followCommit_commits args
    rw [recognizeLeader_logEntries] at hr
    exact ⟨by omega, s.prevMatches_recognizeLeader args ▸ hprev, changed, hc.logEntries ▸ hr⟩

theorem handleAppendEntries_accept {s : Server} {args : AppendEntriesArgs} {log : List LogEntry}
    {changed : Bool} (hterm : s.metadata.currentTerm ≤ args.term)
    (hprev : s.prevMatches args = true)
    (hr : reconcile s.logEntries false args.entries = some (log, changed)) :
    ∃ r, s.handleAppendEntries args = some r ∧ r.1.success = true ∧ r.2.logEntries = log := by
  have hstore : ∃ s', (s.recognizeLeader args).storeEntries args.entries = some s' ∧
      s'.logEntries = log := by
    unfold storeEntries
    rw [recognizeLeader_logEntries, hr]
    rcases changed with _ | _
    · exact ⟨_, rfl, rfl⟩
    · exact ⟨_, rfl, rfl⟩
  obtain ⟨s', hs', hlog⟩ := hstore
  obtain ⟨es, hc⟩ := s'.followCommit_commits args
  refine ⟨(⟨s'.metadata.currentTerm, true⟩, s'.followCommit args), ?_, rfl, hc.logEntries.trans hlog⟩
  unfold handleAppendEntries
  rw [if_neg (by omega)]
  dsimp only
  rw [if_pos (by rw [prevMatches_recognizeLeader, hprev]), hs']
  rfl

/-- **The check on the previous entry** makes the two logs agree up to it. -/
theorem take_eq_of_prevMatches {s : Server} {args : AppendEntriesArgs} {L : List LogEntry}
    (hmatch : Matching s.logEntries L) (hle : args.prevLogIndex ≤ L.length)
    (hterm : args.prevLogIndex ≠ 0 →
      L[args.prevLogIndex - 1]?.map LogEntry.term = some args.prevLogTerm)
    (hprev : s.prevMatches args = true) :
    s.logEntries.take args.prevLogIndex = L.take args.prevLogIndex := by
  rcases Nat.eq_zero_or_pos args.prevLogIndex with hzero | hpos
  · rw [hzero, List.take_zero, List.take_zero]
  · simp only [prevMatches, Bool.or_eq_true, Bool.and_eq_true, decide_eq_true_eq] at hprev
    obtain ⟨hlen, hat⟩ := hprev.resolve_left (by omega)
    have hF : s.logEntries[args.prevLogIndex - 1]? = some s.logEntries[args.prevLogIndex - 1] :=
      List.getElem?_eq_getElem (by omega)
    have hL : L[args.prevLogIndex - 1]? = some L[args.prevLogIndex - 1] :=
      List.getElem?_eq_getElem (by omega)
    rw [termAt, if_neg (by omega), hF, Option.map_some, Option.getD_some] at hat
    have hterm' := hterm (by omega)
    rw [hL, Option.map_some, Option.some.injEq] at hterm'
    have := hmatch _ _ _ hF hL (hat.trans hterm'.symm)
    rwa [Nat.sub_add_cancel hpos] at this

end Server

end RaftConsensus
