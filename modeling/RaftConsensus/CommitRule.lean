import RaftConsensus.Reconcile
import Mathlib.Data.Nat.Find
import Mathlib.Data.List.Perm.Basic

/-!
# The commitment rule

`advanceCommit` looks for an index to commit from the end of the log downwards, and stops at
the commit index it has already.  `MayCommit` says what it looks for, without the order in
which it looks: an index above the commit index, at which stands an entry of the current
term that a majority holds.

What comes out depends on `matchIndex` only through the greatest index that a majority holds
(`commitLevel`), and that grows with `matchIndex`.  So a leader that handles acknowledgements
one after another ends, whatever their order, with the greatest match for each peer, the
level of these, and the entries up to there applied (`acknowledge_perm`).
-/

namespace RaftConsensus

namespace Server

/-! ## The rule -/

/-- At index `n` stands an entry of the current term, and a majority holds it. -/
def Replicated (s : Server) (n : ℕ) : Prop :=
  s.logEntries[n - 1]?.map LogEntry.term = some s.metadata.currentTerm ∧ s.majority ≤ s.replicas n

/-- The commitment rule: what the leader may raise its commit index to. -/
def MayCommit (s : Server) (n : ℕ) : Prop := s.metadata.commitIndex < n ∧ s.Replicated n

instance (s : Server) (n : ℕ) : Decidable (s.Replicated n) :=
  inferInstanceAs (Decidable (_ ∧ _))

instance (s : Server) (n : ℕ) : Decidable (s.MayCommit n) :=
  inferInstanceAs (Decidable (_ ∧ _))

/-- Only an index of the log is committed. -/
theorem Replicated.le {s : Server} {n : ℕ} (h : s.Replicated n) (hn : 0 < n) :
    n ≤ s.logEntries.length := by
  rcases hk : s.logEntries[n - 1]? with _ | e
  · have := h.1
    rw [hk] at this
    exact absurd this (by simp)
  · have := (List.getElem?_eq_some_iff.mp hk).1
    omega

/-- Inside the log `termAt` is the term of the entry. -/
theorem termAt_eq_iff {s : Server} {n t : ℕ} (hn : 0 < n) (hle : n ≤ s.logEntries.length) :
    s.termAt n = t ↔ s.logEntries[n - 1]?.map LogEntry.term = some t := by
  rw [termAt, if_neg (by omega), List.getElem?_eq_getElem (by omega), Option.map_some,
    Option.getD_some, Option.some.injEq]

/-- The scan from `k` finds nothing only if no index up to `k` satisfies the rule. -/
theorem commitScan_eq_none {s : Server} {k : ℕ} (hk : k ≤ s.logEntries.length)
    (h : s.commitScan k = none) : ∀ n ≤ k, ¬ s.MayCommit n := by
  induction k with
  | zero =>
    rintro n hn ⟨hlt, -⟩
    omega
  | succ k ih =>
    rintro n hn ⟨hlt, hrep⟩
    rw [commitScan, if_neg (by omega)] at h
    by_cases hlast : n = k + 1
    · subst hlast
      rw [if_neg (not_not.mpr ((termAt_eq_iff (by omega) hk).mpr hrep.1)), if_pos hrep.2] at h
      exact absurd h (by simp)
    · split at h
      · exact ih (by omega) h n (by omega) ⟨hlt, hrep⟩
      · split at h
        · exact absurd h (by simp)
        · exact ih (by omega) h n (by omega) ⟨hlt, hrep⟩

/-- What the scan from `k` finds is the greatest index up to `k` that satisfies the rule. -/
theorem commitScan_isGreatest {s : Server} {k n : ℕ} (hk : k ≤ s.logEntries.length)
    (h : s.commitScan k = some n) : IsGreatest {m | m ≤ k ∧ s.MayCommit m} n := by
  obtain ⟨hlt, hle, hterm, hmaj⟩ := commitScan_eq_some h
  refine ⟨⟨hle, hlt, (termAt_eq_iff (by omega) (by omega)).mp hterm, hmaj⟩, ?_⟩
  rintro m ⟨hmk, hm⟩
  -- the scan has passed every index above `n`
  induction k with
  | zero => simp [commitScan] at h
  | succ k ih =>
    have hm' := hm.1
    rw [commitScan, if_neg (by omega)] at h
    by_cases hlast : m = k + 1
    · subst hlast
      rw [if_neg (not_not.mpr ((termAt_eq_iff (by omega) hk).mpr hm.2.1)), if_pos hm.2.2] at h
      exact (Option.some.inj h).le
    · split at h
      · exact ih (by omega) h (commitScan_eq_some h).2.1 (by omega)
      · split at h
        · have := Option.some.inj h
          omega
        · exact ih (by omega) h (commitScan_eq_some h).2.1 (by omega)

/-! ## What is applied -/

/-- `lastApplied` and the state machine when the commit index has gone up to `n`. -/
def caughtUp (s : Server) (n : ℕ) : ℕ × KVStateMachine :=
  if s.metadata.commitIndex < n then
    (max s.metadata.lastApplied n,
      ((s.logEntries.take n).drop s.metadata.lastApplied).foldl (fun m e => m.apply e.command)
        s.stateMachine)
  else (s.metadata.lastApplied, s.stateMachine)

/-- What `applyCommitted` leaves in `lastApplied` and in the state machine. -/
theorem applyCommitted_applied (s : Server) (h : s.metadata.commitIndex ≤ s.logEntries.length) :
    (s.applyCommitted.metadata.lastApplied, s.applyCommitted.stateMachine) =
      (max s.metadata.lastApplied s.metadata.commitIndex,
        s.unapplied.foldl (fun m e => m.apply e.command) s.stateMachine) := by
  have hlen : s.unapplied.length = s.metadata.commitIndex - s.metadata.lastApplied := by
    rw [unapplied, List.length_drop, List.length_take_of_le h]
  rw [applyCommitted_eq]
  split
  · next hnil =>
    rw [hnil] at hlen ⊢
    rw [max_eq_left (by simp at hlen; omega), List.foldl_nil]
  · refine Prod.ext ?_ rfl
    show s.metadata.lastApplied + s.unapplied.length = _
    omega

theorem raiseCommit_commitIndex (s : Server) (n : ℕ) (mark : Effect) :
    (s.raiseCommit n mark).metadata.commitIndex = n :=
  applyCommitted_commitIndex _

theorem raiseCommit_applied (s : Server) {n : ℕ} (mark : Effect)
    (hlt : s.metadata.commitIndex < n) (hle : n ≤ s.logEntries.length) :
    ((s.raiseCommit n mark).metadata.lastApplied, (s.raiseCommit n mark).stateMachine) =
      s.caughtUp n := by
  rw [caughtUp, if_pos hlt]
  exact applyCommitted_applied _ hle

/-- Applying up to `n` and then up to `k` is applying up to `k`. -/
theorem caughtUp_caughtUp {s s' : Server} (hlog : s'.logEntries = s.logEntries)
    (hle : s.metadata.commitIndex ≤ s'.metadata.commitIndex)
    (hlen : s'.metadata.commitIndex ≤ s.logEntries.length)
    (h : (s'.metadata.lastApplied, s'.stateMachine) = s.caughtUp s'.metadata.commitIndex) {k : ℕ}
    (hk : s'.metadata.commitIndex ≤ k) : s'.caughtUp k = s.caughtUp k := by
  rcases hk.eq_or_lt with rfl | hk
  · rw [caughtUp, if_neg (lt_irrefl _), h]
  rcases hle.eq_or_lt with heq | hlt
  · rw [caughtUp, ← heq, if_neg (lt_irrefl _)] at h
    obtain ⟨happlied, hmachine⟩ := Prod.mk.inj h
    rw [caughtUp, caughtUp, if_pos hk, if_pos (heq ▸ hk), hlog, happlied, hmachine]
  · rw [caughtUp, if_pos hlt] at h
    obtain ⟨happlied, hmachine⟩ := Prod.mk.inj h
    rw [caughtUp, caughtUp, if_pos hk, if_pos (hlt.trans hk), hlog, happlied, hmachine]
    -- the two stretches of the log are one
    have hsplit : (s.logEntries.take s'.metadata.commitIndex).drop s.metadata.lastApplied ++
        (s.logEntries.take k).drop (max s.metadata.lastApplied s'.metadata.commitIndex) =
          (s.logEntries.take k).drop s.metadata.lastApplied := by
      rcases Nat.le_total s.metadata.lastApplied s'.metadata.commitIndex with hac | hca
      · have htake : s.logEntries.take s'.metadata.commitIndex =
            (s.logEntries.take k).take s'.metadata.commitIndex := by
          rw [List.take_take, min_eq_left hk.le]
        rw [max_eq_right hac, htake, List.drop_take]
        have hdrop : (s.logEntries.take k).drop s'.metadata.commitIndex =
            ((s.logEntries.take k).drop s.metadata.lastApplied).drop
              (s'.metadata.commitIndex - s.metadata.lastApplied) := by
          rw [List.drop_drop, Nat.add_sub_cancel' hac]
        rw [hdrop, List.take_append_drop]
      · rw [max_eq_left hca, List.drop_eq_nil_of_le (by rw [List.length_take]; omega),
          List.nil_append]
    refine Prod.ext ?_ ?_
    · show max (max s.metadata.lastApplied s'.metadata.commitIndex) k = max s.metadata.lastApplied k
      rw [max_assoc, max_eq_right hk.le]
    · show List.foldl _ (List.foldl _ _ _) _ = List.foldl _ _ _
      rw [← List.foldl_append, hsplit]

/-! ## One call -/

/-- **`advanceCommit` computes the commitment rule.**  The leader of an indexed log commits the
greatest index that satisfies the rule and applies everything up to it, and nothing else
changes; if no index does, nothing changes at all. -/
theorem advanceCommit_rule {s : Server} (hrole : s.role = .leader) (hlog : Indexed s.logEntries) :
    (s.advanceCommit = s ∧ ∀ n, ¬ s.MayCommit n) ∨
      ∃ n, IsGreatest {m | s.MayCommit m} n ∧ s.advanceCommit.metadata.commitIndex = n ∧
        (s.advanceCommit.metadata.lastApplied, s.advanceCommit.stateMachine) = s.caughtUp n ∧
          ∃ es, Commits s s.advanceCommit es := by
  have hlast : s.getLastLogIndex = s.logEntries.length := hlog.getLastLogIndex
  have hbound : ∀ n, s.MayCommit n → n ≤ s.logEntries.length := fun n hn =>
    hn.2.le (Nat.zero_lt_of_lt hn.1)
  rcases hscan : s.commitScan s.logEntries.length with _ | n
  · left
    refine ⟨?_, fun n hn => commitScan_eq_none le_rfl hscan n (hbound n hn) hn⟩
    rw [advanceCommit, if_neg (by simp [hrole]), hlast, hscan]
  · right
    have heq : s.advanceCommit = s.commitTo n := by
      rw [advanceCommit, if_neg (by simp [hrole]), hlast, hscan]
      rfl
    obtain ⟨⟨hle, hmay⟩, hmax⟩ := commitScan_isGreatest le_rfl hscan
    refine ⟨n, ⟨hmay, fun m hm => hmax ⟨hbound m hm, hm⟩⟩, ?_, ?_, s.advanceCommit_commits⟩
    · rw [heq]
      exact applyCommitted_commitIndex _
    · rw [heq]
      exact s.raiseCommit_applied _ hmay.1 hle

/-! ## The level -/

/-- The greatest index of the current term that a majority holds; `0` if there is none. -/
def commitLevel (s : Server) : ℕ := Nat.findGreatest s.Replicated s.logEntries.length

/-- With more matched, the level is no lower. -/
theorem commitLevel_mono {s s' : Server} (hterm : s'.metadata.currentTerm = s.metadata.currentTerm)
    (hlog : s'.logEntries = s.logEntries) (hpeers : s'.peers = s.peers)
    (hmatch : ∀ p, s.matchIndex p ≤ s'.matchIndex p) : s.commitLevel ≤ s'.commitLevel := by
  have hmono : ∀ n, s.Replicated n → s'.Replicated n := by
    rintro n ⟨hn, hmaj⟩
    refine ⟨by rw [hlog, hterm, hn], ?_⟩
    have hcount : s.replicas n ≤ s'.replicas n := by
      rw [replicas, replicas, hpeers]
      refine Nat.add_le_add_left (List.countP_mono_left fun p _ hp => ?_) 1
      exact decide_eq_true ((of_decide_eq_true hp).trans (hmatch p))
    rw [majority, hpeers]
    exact hmaj.trans hcount
  rw [commitLevel, commitLevel, hlog]
  exact Nat.findGreatest_mono_left hmono _

/-- The commit index goes up to the level. -/
theorem advanceCommit_commitLevel {s : Server} (hrole : s.role = .leader)
    (hlog : Indexed s.logEntries) :
    s.advanceCommit.metadata.commitIndex = max s.metadata.commitIndex s.commitLevel ∧
      (s.advanceCommit.metadata.lastApplied, s.advanceCommit.stateMachine) =
        s.caughtUp s.advanceCommit.metadata.commitIndex := by
  rcases advanceCommit_rule hrole hlog with ⟨heq, hnone⟩ | ⟨n, ⟨hmay, hmax⟩, hn, happ, -⟩
  · have hlevel : s.commitLevel ≤ s.metadata.commitIndex := by
      by_contra hlt
      push Not at hlt
      have hspec := Nat.findGreatest_of_ne_zero (P := s.Replicated) (n := s.logEntries.length)
        rfl (Nat.ne_zero_of_lt hlt)
      exact hnone _ ⟨hlt, hspec⟩
    rw [heq, max_eq_left hlevel, caughtUp, if_neg (lt_irrefl _)]
    exact ⟨rfl, rfl⟩
  · have hpos : 0 < n := Nat.zero_lt_of_lt hmay.1
    have hlevel : s.commitLevel = n := by
      refine le_antisymm ?_ (Nat.le_findGreatest (hmay.2.le hpos) hmay.2)
      rcases Nat.eq_zero_or_pos s.commitLevel with hzero | hlpos
      · omega
      · by_contra hlt
        push Not at hlt
        have hspec := Nat.findGreatest_of_ne_zero (P := s.Replicated) (n := s.logEntries.length)
          rfl hlpos.ne'
        exact absurd (hmax ⟨hmay.1.trans hlt, hspec⟩) (by omega)
    rw [hn, hlevel, max_eq_right hmay.1.le]
    exact ⟨rfl, happ⟩

/-! ## Acknowledgements -/

end Server

/-- A reply that a peer has sent to a request. -/
structure Ack where
  peer : ℕ
  args : AppendEntriesArgs
  reply : AppendEntriesReply

namespace Ack

/-- A success, for a request of the term `t`. -/
structure Succeeds (a : Ack) (t : ℕ) : Prop where
  term : a.args.term = t
  reply_le : a.reply.term ≤ t
  success : a.reply.success = true

/-- `newMatch`. -/
def newMatch (a : Ack) : ℕ := (a.args.prevLogIndex + a.args.entries.length) % 2 ^ 64

/-- `matchIndex` of the peer is raised to `newMatch` if that is larger. -/
def raise (m : ℕ → ℕ) (a : Ack) : ℕ → ℕ := Function.update m a.peer (max (m a.peer) a.newMatch)

theorem le_raise (m : ℕ → ℕ) (a : Ack) (p : ℕ) : m p ≤ a.raise m p := by
  rw [raise, Function.update_apply]
  split
  · next hp => exact hp ▸ le_max_left _ _
  · exact le_rfl

/-- Two acknowledgements raise the matches to the same in either order. -/
theorem raise_comm (m : ℕ → ℕ) (a b : Ack) : b.raise (a.raise m) = a.raise (b.raise m) := by
  funext p
  simp only [raise, Function.update_apply]
  by_cases hab : a.peer = b.peer
  · rw [if_pos hab.symm, if_pos hab, hab, max_right_comm]
    split
    · rfl
    · rfl
  · rw [if_neg (Ne.symm hab), if_neg hab]
    split
    · next hb => rw [if_neg (hb ▸ Ne.symm hab)]
    · rfl

end Ack

namespace Server

/-- The section of `replicationLoop` that handles the reply `a`. -/
def acknowledge (s : Server) (a : Ack) : Server := s.handleAppendEntriesReply a.peer a.args a.reply

/-- A success in the leader's term raises the match of the peer and advances the commit index. -/
theorem acknowledge_eq {s : Server} {a : Ack} (hrole : s.role = .leader)
    (ha : a.Succeeds s.metadata.currentTerm) :
    ∃ s' : Server, s.acknowledge a = s'.advanceCommit ∧ s'.role = .leader ∧ s'.peers = s.peers ∧
      s'.logEntries = s.logEntries ∧ s'.metadata = s.metadata ∧ s'.stateMachine = s.stateMachine ∧
        s'.matchIndex = a.raise s.matchIndex := by
  rw [acknowledge, handleAppendEntriesReply]
  dsimp only
  rw [if_neg (Nat.not_lt.mpr ha.reply_le), if_neg (by simp [hrole, ha.term]), if_pos ha.success,
    creditPeer]
  dsimp only
  refine ⟨_, rfl, ?_⟩
  split
  · next hlt =>
    refine ⟨hrole, rfl, rfl, rfl, rfl, ?_⟩
    rw [Ack.raise, max_eq_right (show _ ≤ a.newMatch from hlt.le)]
    rfl
  · next hle =>
    refine ⟨hrole, rfl, rfl, rfl, rfl, ?_⟩
    rw [Ack.raise, max_eq_left (show a.newMatch ≤ _ from Nat.not_lt.mp hle),
      Function.update_eq_self]

/-- **What a leader has done with acknowledgements**, in a form that does not speak of their
order: the matches are raised, the commit index is at the level of these, and everything up to
there is applied. -/
structure Acknowledged (s s' : Server) (acks : List Ack) : Prop where
  role : s'.role = .leader
  peers : s'.peers = s.peers
  currentTerm : s'.metadata.currentTerm = s.metadata.currentTerm
  logEntries : s'.logEntries = s.logEntries
  matchIndex : s'.matchIndex = acks.foldl Ack.raise s.matchIndex
  commitIndex : s'.metadata.commitIndex =
    if acks = [] then s.metadata.commitIndex else max s.metadata.commitIndex s'.commitLevel
  caughtUp : (s'.metadata.lastApplied, s'.stateMachine) = s.caughtUp s'.metadata.commitIndex

/-- The level depends on the term, the log, the peers and their matches only. -/
theorem commitLevel_congr {s s' : Server} (hterm : s'.metadata.currentTerm = s.metadata.currentTerm)
    (hlog : s'.logEntries = s.logEntries) (hpeers : s'.peers = s.peers)
    (hmatch : s'.matchIndex = s.matchIndex) : s'.commitLevel = s.commitLevel :=
  le_antisymm (commitLevel_mono hterm.symm hlog.symm hpeers.symm fun p => (congrFun hmatch p).le)
    (commitLevel_mono hterm hlog hpeers fun p => (congrFun hmatch p).ge)

theorem commitLevel_le (s : Server) : s.commitLevel ≤ s.logEntries.length := Nat.findGreatest_le _

namespace Acknowledged

variable {s s' : Server} {acks : List Ack} (h : Acknowledged s s' acks)

include h

theorem le : s.metadata.commitIndex ≤ s'.metadata.commitIndex := by
  rw [h.commitIndex]
  split
  · exact le_rfl
  · exact le_max_left _ _

/-- One more acknowledgement. -/
theorem acknowledge (hlog : Indexed s.logEntries)
    (hcommit : s.metadata.commitIndex ≤ s.logEntries.length) {a : Ack}
    (ha : a.Succeeds s.metadata.currentTerm) : Acknowledged s (s'.acknowledge a) (acks ++ [a]) := by
  obtain ⟨t, heq, hrole, hpeers, htlog, hmeta, hmachine, hmatch⟩ :=
    acknowledge_eq h.role (h.currentTerm.symm ▸ ha)
  obtain ⟨es, hc⟩ := t.advanceCommit_commits
  have htlog' : t.logEntries = s.logEntries := htlog.trans h.logEntries
  obtain ⟨hindex, happ⟩ := advanceCommit_commitLevel hrole (htlog' ▸ hlog)
  have hterm : t.metadata.currentTerm = s'.metadata.currentTerm := by rw [hmeta]
  -- the level before was no higher than the one now
  have hmono : s'.commitLevel ≤ t.commitLevel :=
    commitLevel_mono hterm htlog hpeers fun p => hmatch ▸ a.le_raise s'.matchIndex p
  have hsame : t.advanceCommit.commitLevel = t.commitLevel :=
    commitLevel_congr hc.currentTerm hc.logEntries hc.peers hc.matchIndex
  have hcommit' : t.advanceCommit.metadata.commitIndex =
      max s.metadata.commitIndex t.commitLevel := by
    rw [hindex, hmeta, h.commitIndex]
    split
    · rfl
    · rw [max_assoc, max_eq_right hmono]
  have hle' : s'.metadata.commitIndex ≤ t.advanceCommit.metadata.commitIndex := by
    rw [hindex, hmeta]
    exact le_max_left _ _
  rw [heq]
  refine ⟨hc.role.trans hrole, hc.peers.trans (hpeers.trans h.peers),
    hc.currentTerm.trans (hterm.trans h.currentTerm), hc.logEntries.trans htlog', ?_, ?_, ?_⟩
  · rw [hc.matchIndex, hmatch, h.matchIndex, List.foldl_append, List.foldl_cons, List.foldl_nil]
  · rw [if_neg (by simp), hcommit', hsame]
  · have hlen : s'.metadata.commitIndex ≤ s.logEntries.length := by
      rw [h.commitIndex]
      split
      · exact hcommit
      · exact max_le hcommit (h.logEntries ▸ s'.commitLevel_le)
    have hts : t.caughtUp t.advanceCommit.metadata.commitIndex =
        s'.caughtUp t.advanceCommit.metadata.commitIndex := by
      rw [Server.caughtUp, Server.caughtUp, hmeta, htlog, hmachine]
    rw [happ, hts]
    exact caughtUp_caughtUp h.logEntries h.le hlen h.caughtUp hle'

end Acknowledged

/-- The acknowledgements, one after another. -/
theorem acknowledged {s : Server} (hrole : s.role = .leader) (hlog : Indexed s.logEntries)
    (hcommit : s.metadata.commitIndex ≤ s.logEntries.length) (acks : List Ack)
    (hacks : ∀ a ∈ acks, a.Succeeds s.metadata.currentTerm) :
    Acknowledged s (acks.foldl acknowledge s) acks := by
  induction acks using List.reverseRecOn with
  | nil => exact ⟨hrole, rfl, rfl, rfl, rfl, rfl, by rw [List.foldl_nil, caughtUp, if_neg (lt_irrefl _)]⟩
  | append_singleton acks a ih =>
    rw [List.foldl_append, List.foldl_cons, List.foldl_nil]
    exact (ih fun b hb => hacks b (List.mem_append_left _ hb)).acknowledge hlog hcommit
      (hacks a (by simp))

/-- **The order of acknowledgements does not matter.** -/
theorem acknowledge_perm {s : Server} (hrole : s.role = .leader) (hlog : Indexed s.logEntries)
    (hcommit : s.metadata.commitIndex ≤ s.logEntries.length) {acks acks' : List Ack}
    (hacks : ∀ a ∈ acks, a.Succeeds s.metadata.currentTerm) (hperm : acks.Perm acks') :
    (acks.foldl acknowledge s).matchIndex = (acks'.foldl acknowledge s).matchIndex ∧
      (acks.foldl acknowledge s).metadata.commitIndex =
          (acks'.foldl acknowledge s).metadata.commitIndex ∧
        (acks.foldl acknowledge s).metadata.lastApplied =
            (acks'.foldl acknowledge s).metadata.lastApplied ∧
          (acks.foldl acknowledge s).stateMachine = (acks'.foldl acknowledge s).stateMachine := by
  have h := acknowledged hrole hlog hcommit acks hacks
  have h' := acknowledged hrole hlog hcommit acks' fun a ha => hacks a (hperm.mem_iff.mpr ha)
  have hmatch : (acks.foldl acknowledge s).matchIndex = (acks'.foldl acknowledge s).matchIndex := by
    rw [h.matchIndex, h'.matchIndex]
    have : RightCommutative Ack.raise :=
      ⟨fun m a b => Ack.raise_comm m a b⟩
    exact hperm.foldl_eq s.matchIndex
  have hcommit' : (acks.foldl acknowledge s).metadata.commitIndex =
      (acks'.foldl acknowledge s).metadata.commitIndex := by
    have hlevel : (acks.foldl acknowledge s).commitLevel = (acks'.foldl acknowledge s).commitLevel :=
      commitLevel_congr (h.currentTerm.trans h'.currentTerm.symm)
        (h.logEntries.trans h'.logEntries.symm) (h.peers.trans h'.peers.symm) hmatch
    have hnil : acks = [] ↔ acks' = [] := by
      rw [← List.length_eq_zero_iff, ← List.length_eq_zero_iff, hperm.length_eq]
    rw [h.commitIndex, h'.commitIndex, hlevel]
    simp only [hnil]
  obtain ⟨happlied, hmachine⟩ := Prod.mk.inj (h.caughtUp.trans ((congrArg _ hcommit').trans
    h'.caughtUp.symm))
  exact ⟨hmatch, hcommit', happlied, hmachine⟩

/-- **The commitment rule, and its independence of the order of acknowledgements.**  A leader of
an indexed log commits the greatest index that satisfies the rule, with everything up to it
applied, or changes nothing if there is none; and two orders of the same acknowledgements end
with the same matches, commit index, applied index and state machine. -/
theorem commitment_rule {s : Server} (hrole : s.role = .leader) (hlog : Indexed s.logEntries)
    (hcommit : s.metadata.commitIndex ≤ s.logEntries.length) :
    ((s.advanceCommit = s ∧ ∀ n, ¬ s.MayCommit n) ∨
      ∃ n, IsGreatest {m | s.MayCommit m} n ∧ s.advanceCommit.metadata.commitIndex = n ∧
        (s.advanceCommit.metadata.lastApplied, s.advanceCommit.stateMachine) = s.caughtUp n ∧
          ∃ es, Commits s s.advanceCommit es) ∧
    ∀ acks acks' : List Ack, (∀ a ∈ acks, a.Succeeds s.metadata.currentTerm) → acks.Perm acks' →
      (acks.foldl acknowledge s).matchIndex = (acks'.foldl acknowledge s).matchIndex ∧
        (acks.foldl acknowledge s).metadata.commitIndex =
            (acks'.foldl acknowledge s).metadata.commitIndex ∧
          (acks.foldl acknowledge s).metadata.lastApplied =
              (acks'.foldl acknowledge s).metadata.lastApplied ∧
            (acks.foldl acknowledge s).stateMachine = (acks'.foldl acknowledge s).stateMachine :=
  ⟨advanceCommit_rule hrole hlog, fun _ _ hacks hperm =>
    acknowledge_perm hrole hlog hcommit hacks hperm⟩

end Server

/-- A leader of term 2 with an entry of term 1 and one of its own, whose peer 2 matches up to
`n`. -/
def leaderOfTwoTerms (n : ℕ) : Server :=
  { Server.new 1 [2, 3] with
    role := .leader
    metadata := ⟨2, 1, 0, 0⟩
    logEntries := [⟨1, 1, (Request.put [1] [2]).command⟩, ⟨2, 2, (Request.put [1] [3]).command⟩]
    matchIndex := fun p => if p = 2 then n else 0 }

/-- A success for the first `n` entries, sent in term 2. -/
def ackUpTo (peer n : ℕ) : Ack :=
  ⟨peer, ⟨2, 1, n, 0, [], 0⟩, ⟨2, true⟩⟩

/-- An acknowledged entry of the current term is committed together with the older one, and two
acknowledgements may arrive in either order. -/
theorem commitment_rule_two_terms :
    (leaderOfTwoTerms 2).advanceCommit.metadata.commitIndex = 2 ∧
      (leaderOfTwoTerms 1).advanceCommit = leaderOfTwoTerms 1 ∧
        ([ackUpTo 2 2, ackUpTo 3 1].foldl Server.acknowledge (leaderOfTwoTerms 0)).stateMachine =
          ([ackUpTo 3 1, ackUpTo 2 2].foldl Server.acknowledge (leaderOfTwoTerms 0)).stateMachine := by
  have hindexed : ∀ n, Indexed (leaderOfTwoTerms n).logEntries := fun _ =>
    Indexed.append_singleton (Indexed.append_singleton Indexed.nil rfl) rfl
  have hrule := fun n => Server.commitment_rule (s := leaderOfTwoTerms n) rfl (hindexed n)
    (Nat.zero_le _)
  refine ⟨?_, ?_, ((hrule 0).2 _ _ ?_ (List.Perm.swap _ _ [])).2.2.2⟩
  · rcases (hrule 2).1 with ⟨-, hnone⟩ | ⟨n, ⟨hmay, hmax⟩, hn, -⟩
    · exact absurd (by decide) (hnone 2)
    · have hge : 2 ≤ n := hmax (show (leaderOfTwoTerms 2).MayCommit 2 by decide)
      have hle : n ≤ 2 := hmay.2.le (by omega)
      omega
  · rcases (hrule 1).1 with ⟨heq, -⟩ | ⟨n, ⟨hmay, -⟩, -⟩
    · exact heq
    · have hle : n ≤ 2 := hmay.2.le (Nat.zero_lt_of_lt hmay.1)
      have hn : n = 0 ∨ n = 1 ∨ n = 2 := by omega
      rcases hn with rfl | rfl | rfl
      · exact absurd hmay (by decide)
      · exact absurd hmay (by decide)
      · exact absurd hmay (by decide)
  · intro a ha
    rcases List.mem_pair.mp ha with rfl | rfl
    · exact ⟨rfl, le_rfl, rfl⟩
    · exact ⟨rfl, le_rfl, rfl⟩

end RaftConsensus
