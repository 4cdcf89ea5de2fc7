import RaftConsensus.CommitRule
import RaftConsensus.Handlers
import Mathlib.Data.List.Dedup

/-!
# The pure models of the unit tests (`unit_tests.cpp`)

The unit tests do not call the server.  They check three functions of their own, which are written
to match the handlers: `voteGranted`, `appendEntries` and `computeCommit`.  Here they are compared
with the handlers, on all states and messages.

* `appendEntries_eq`: the model of AppendEntries is the handler, for every message that is not
  stale, whatever its entries are.
* `Agrees`: that all three give what the handlers give.
* `Matched`: when they do.  `voteGranted` does not step down to a later term, so it denies a vote
  that the server gives if it has voted before; and `computeCommit` knows neither the role of the
  node nor how often the list of peers names one.
* `agrees_iff_matched`: the models agree with the handlers there, and nowhere else.
-/

namespace RaftConsensus

namespace UnitTests

/-- `voteGranted`. -/
def voteGranted (curTerm votedFor ourLastIdx ourLastTerm : ℕ) (a : RequestVoteArgs) : Bool :=
  if a.term < curTerm then false
  else
    let canVote := votedFor = 0 || votedFor = a.candidateId
    let logOk := ourLastTerm < a.lastLogTerm ||
      (a.lastLogTerm = ourLastTerm && ourLastIdx ≤ a.lastLogIndex)
    canVote && logOk

/-- The `termAt` of `appendEntries`. -/
def termAt (log : List LogEntry) (i : ℕ) : ℕ :=
  if i = 0 ∨ log.length < i then 0 else (log[i - 1]?.map LogEntry.term).getD 0

/-- The loop of `appendEntries`.  An entry with index `0` makes it read `log[-1]`. -/
def appendLoop : List LogEntry → List LogEntry → Option (List LogEntry)
  | log, [] => some log
  | log, e :: entries =>
    if e.index ≤ log.length then
      if e.index = 0 then none
      else if (log[e.index - 1]?.map LogEntry.term) ≠ some e.term then
        appendLoop (log.take (e.index - 1) ++ [e]) entries
      else appendLoop log entries
    else appendLoop (log ++ [e]) entries

/-- `appendEntries`, with the log that it leaves. -/
def appendEntries (log : List LogEntry) (prevIdx prevTerm : ℕ) (entries : List LogEntry) :
    Option (Bool × List LogEntry) :=
  if 0 < prevIdx ∧ (log.length < prevIdx ∨ termAt log prevIdx ≠ prevTerm) then some (false, log)
  else (appendLoop log entries).map fun log => (true, log)

/-- The loop of `computeCommit`, from `N` down; `matched` are the pairs of the map. -/
def commitLoop (log : List LogEntry) (curTerm : ℕ) (matched : List (ℕ × ℕ))
    (majority commitIndex : ℕ) : ℕ → ℕ
  | 0 => commitIndex
  | n + 1 =>
    if n + 1 ≤ commitIndex then commitIndex
    else if log[n]?.map LogEntry.term ≠ some curTerm then
      commitLoop log curTerm matched majority commitIndex n
    else if majority ≤ 1 + matched.countP (fun kv => decide (n + 1 ≤ kv.2)) then n + 1
    else commitLoop log curTerm matched majority commitIndex n

/-- `computeCommit`. -/
def computeCommit (log : List LogEntry) (curTerm : ℕ) (matched : List (ℕ × ℕ))
    (clusterSize commitIndex : ℕ) : ℕ :=
  commitLoop log curTerm matched (clusterSize / 2 + 1) commitIndex log.length

end UnitTests

namespace Server

variable {s : Server}

/-- The map from the peers to their `matchIndex`: it has a peer once. -/
def matchMap (s : Server) : List (ℕ × ℕ) := s.peers.dedup.map fun p => (p, s.matchIndex p)

/-- The candidate's log is at least as up to date as ours. -/
def logOk (s : Server) (args : RequestVoteArgs) : Bool :=
  s.getLastLogTerm < args.lastLogTerm ||
    (args.lastLogTerm = s.getLastLogTerm && s.getLastLogIndex ≤ args.lastLogIndex)

/-- The rule of the tests: as `MayCommit`, with each peer counted once. -/
def CountedOnce (s : Server) (n : ℕ) : Prop :=
  s.metadata.commitIndex < n ∧
    s.logEntries[n - 1]?.map LogEntry.term = some s.metadata.currentTerm ∧
      s.majority ≤ 1 + s.peers.dedup.countP fun p => decide (n ≤ s.matchIndex p)

/-- What the tests would have to find. -/
structure Agrees (s : Server) (vote : RequestVoteArgs) (append : AppendEntriesArgs) : Prop where
  vote : UnitTests.voteGranted s.metadata.currentTerm s.metadata.votedFor s.getLastLogIndex
    s.getLastLogTerm vote = (s.handleRequestVote vote).1.voteGranted
  append : ¬ append.term < s.metadata.currentTerm →
    UnitTests.appendEntries s.logEntries append.prevLogIndex append.prevLogTerm append.entries =
      (s.handleAppendEntries append).map fun r => (r.1.success, r.2.logEntries)
  commit : UnitTests.computeCommit s.logEntries s.metadata.currentTerm s.matchMap
    (s.peers.length + 1) s.metadata.commitIndex = s.advanceCommit.metadata.commitIndex

/-- When they find it. -/
structure Matched (s : Server) (vote : RequestVoteArgs) : Prop where
  /-- no candidate of a later term, with a good log, comes after a vote for another -/
  vote : ¬ (s.metadata.currentTerm < vote.term ∧ s.metadata.votedFor ≠ 0 ∧
    s.metadata.votedFor ≠ vote.candidateId ∧ s.logOk vote = true)
  /-- what the leader may commit, it may with each peer counted once -/
  leader : s.role = .leader → ∀ n, s.MayCommit n → ∃ m, n ≤ m ∧ s.CountedOnce m
  other : s.role ≠ .leader → ∀ n, ¬ s.CountedOnce n

/-! ## RequestVote -/

/-- The vote of the handler: after step 2 a vote for another counts no more. -/
theorem handleRequestVote_voteGranted (s : Server) (args : RequestVoteArgs) :
    (s.handleRequestVote args).1.voteGranted = true ↔ ¬ args.term < s.metadata.currentTerm ∧
      (s.metadata.currentTerm < args.term ∨ s.metadata.votedFor = 0 ∨
        s.metadata.votedFor = args.candidateId) ∧ s.logOk args = true := by
  have hcan : (s.meetTerm args.term).canVote args = true ↔
      (s.metadata.currentTerm < args.term ∨ s.metadata.votedFor = 0 ∨
        s.metadata.votedFor = args.candidateId) ∧ s.logOk args = true := by
    unfold meetTerm
    split
    · next hlt =>
      have hlog : (s.stepDown args.term).canVote args = s.logOk args := rfl
      simp [hlog, hlt]
    · next hlt =>
      rw [canVote, Bool.and_eq_true, Bool.or_eq_true, decide_eq_true_eq, decide_eq_true_eq]
      simp [hlt, logOk]
  generalize hr : s.handleRequestVote args = r
  cases handleRequestVote_way hr with
  | old hterm => simp [hterm]
  | granted hterm hvote => simpa [hterm] using hcan.mp hvote
  | denied hterm hvote =>
    simp only [Bool.false_eq_true, false_iff]
    exact fun h => hvote (hcan.mpr h.2)

theorem voteGranted_eq_true (s : Server) (args : RequestVoteArgs) :
    UnitTests.voteGranted s.metadata.currentTerm s.metadata.votedFor s.getLastLogIndex
        s.getLastLogTerm args = true ↔ ¬ args.term < s.metadata.currentTerm ∧
      (s.metadata.votedFor = 0 ∨ s.metadata.votedFor = args.candidateId) ∧
        s.logOk args = true := by
  unfold UnitTests.voteGranted
  split
  · next hlt => simp [hlt]
  · next hlt =>
    dsimp only
    rw [← logOk, Bool.and_eq_true, Bool.or_eq_true, decide_eq_true_eq, decide_eq_true_eq]
    exact ⟨fun h => ⟨hlt, h⟩, fun h => h.2⟩

/-- **The model of RequestVote** differs from the handler only after a vote for another in an earlier
term. -/
theorem voteGranted_iff (s : Server) (args : RequestVoteArgs) :
    UnitTests.voteGranted s.metadata.currentTerm s.metadata.votedFor s.getLastLogIndex
        s.getLastLogTerm args = (s.handleRequestVote args).1.voteGranted ↔
      ¬ (s.metadata.currentTerm < args.term ∧ s.metadata.votedFor ≠ 0 ∧
        s.metadata.votedFor ≠ args.candidateId ∧ s.logOk args = true) := by
  rw [Bool.eq_iff_iff, voteGranted_eq_true, handleRequestVote_voteGranted]
  constructor
  · rintro h ⟨hlater, hfree, hother, hlog⟩
    obtain ⟨-, hvoted, -⟩ := h.mpr ⟨hlater.not_gt, Or.inl hlater, hlog⟩
    exact hvoted.elim hfree hother
  · intro h
    constructor
    · rintro ⟨hterm, hvoted, hlog⟩
      exact ⟨hterm, Or.inr hvoted, hlog⟩
    · rintro ⟨hterm, hlater | hvoted, hlog⟩
      · refine ⟨hterm, ?_, hlog⟩
        by_contra hnone
        obtain ⟨hfree, hother⟩ := not_or.mp hnone
        exact h ⟨hlater, hfree, hother, hlog⟩
      · exact ⟨hterm, hvoted, hlog⟩

/-! ## AppendEntries -/

/-- The two loops leave the same log. -/
theorem reconcile_eq_appendLoop (log : List LogEntry) (changed : Bool) (entries : List LogEntry) :
    (reconcile log changed entries).map Prod.fst = UnitTests.appendLoop log entries := by
  induction entries generalizing log changed with
  | nil => rfl
  | cons e entries ih =>
    rw [reconcile, UnitTests.appendLoop]
    split
    · split
      · rfl
      · split
        · exact ih _ _
        · exact ih _ _
    · exact ih _ _

theorem termAt_eq (s : Server) (i : ℕ) : UnitTests.termAt s.logEntries i = s.termAt i := by
  unfold UnitTests.termAt termAt
  by_cases hi : i = 0
  · rw [if_pos (Or.inl hi), if_pos hi]
  rw [if_neg hi]
  split
  · next hout =>
    rw [List.getElem?_eq_none (by omega)]
    rfl
  · rfl

/-- Step 3 in the words of the tests. -/
theorem recognizeLeader_prevMatches (s : Server) (args : AppendEntriesArgs) :
    (s.recognizeLeader args).prevMatches args = true ↔
      ¬ (0 < args.prevLogIndex ∧ (s.logEntries.length < args.prevLogIndex ∨
        UnitTests.termAt s.logEntries args.prevLogIndex ≠ args.prevLogTerm)) := by
  rw [← s.recognizeLeader_logEntries args, termAt_eq, prevMatches, Bool.or_eq_true,
    Bool.and_eq_true, decide_eq_true_eq, decide_eq_true_eq, decide_eq_true_eq, not_and_or, not_or,
    not_lt, not_lt, not_not, Nat.le_zero]

/-- Steps 4 and 5 in the words of the tests. -/
theorem storeEntries_logEntries (s : Server) (entries : List LogEntry) :
    (s.storeEntries entries).map Server.logEntries = UnitTests.appendLoop s.logEntries entries := by
  rw [← reconcile_eq_appendLoop _ false, storeEntries]
  rcases reconcile s.logEntries false entries with _ | ⟨log, _ | _⟩ <;> rfl

/-- **The model of AppendEntries is the handler**, in the flag and in the log. -/
theorem appendEntries_eq {args : AppendEntriesArgs} (hterm : ¬ args.term < s.metadata.currentTerm) :
    UnitTests.appendEntries s.logEntries args.prevLogIndex args.prevLogTerm args.entries =
      (s.handleAppendEntries args).map fun r => (r.1.success, r.2.logEntries) := by
  rw [UnitTests.appendEntries, handleAppendEntries, if_neg hterm]
  dsimp only
  by_cases h : (s.recognizeLeader args).prevMatches args = true
  · have hfollow : ∀ s' : Server, (s'.followCommit args).logEntries = s'.logEntries := fun s' => by
      obtain ⟨es, hc⟩ := s'.followCommit_commits args
      exact hc.logEntries
    rw [if_neg ((recognizeLeader_prevMatches s args).mp h), if_pos h, ← s.recognizeLeader_logEntries args,
      ← storeEntries_logEntries, Option.map_map, Option.map_map]
    congr 1
    funext s'
    simp only [Function.comp_apply, hfollow]
  · rw [if_pos (not_not.mp (mt (recognizeLeader_prevMatches s args).mpr h)), if_neg h]
    simp only [Option.map_some, recognizeLeader_logEntries]

/-! ## The commit rule -/

variable {log : List LogEntry} {matched : List (ℕ × ℕ)} {curTerm majority commitIndex : ℕ}

/-- The three tests of `computeCommit`. -/
def Passes (log : List LogEntry) (curTerm : ℕ) (matched : List (ℕ × ℕ))
    (majority commitIndex n : ℕ) : Prop :=
  commitIndex < n ∧ log[n - 1]?.map LogEntry.term = some curTerm ∧
    majority ≤ 1 + matched.countP fun kv => decide (n ≤ kv.2)

/-- The loop of `computeCommit` finds the greatest index that passes the tests. -/
theorem commitLoop_rule (k : ℕ) :
    (UnitTests.commitLoop log curTerm matched majority commitIndex k = commitIndex ∧
      ∀ n ≤ k, ¬ Passes log curTerm matched majority commitIndex n) ∨
    IsGreatest {n | n ≤ k ∧ Passes log curTerm matched majority commitIndex n}
      (UnitTests.commitLoop log curTerm matched majority commitIndex k) := by
  induction k with
  | zero =>
    left
    refine ⟨rfl, fun n hn h => ?_⟩
    have hlt := h.1
    omega
  | succ k ih =>
    -- an index that does not pass leaves the choice to the rest
    have hskip : ¬ Passes log curTerm matched majority commitIndex (k + 1) →
        (UnitTests.commitLoop log curTerm matched majority commitIndex k = commitIndex ∧
          ∀ n ≤ k + 1, ¬ Passes log curTerm matched majority commitIndex n) ∨
        IsGreatest {n | n ≤ k + 1 ∧ Passes log curTerm matched majority commitIndex n}
          (UnitTests.commitLoop log curTerm matched majority commitIndex k) := by
      intro hfail
      have hstep : ∀ n, n ≤ k + 1 → Passes log curTerm matched majority commitIndex n → n ≤ k := by
        intro n hn hpass
        rcases Nat.lt_or_ge k n with hlt | hle
        · obtain rfl : n = k + 1 := by omega
          exact absurd hpass hfail
        · exact hle
      rcases ih with ⟨heq, hnone⟩ | ⟨⟨hle, hpass⟩, hmax⟩
      · exact Or.inl ⟨heq, fun n hn hpass => hnone n (hstep n hn hpass) hpass⟩
      · exact Or.inr ⟨⟨by omega, hpass⟩, fun n hn => hmax ⟨hstep n hn.1 hn.2, hn.2⟩⟩
    rw [UnitTests.commitLoop]
    split
    · next hdone =>
      left
      refine ⟨rfl, fun n hn hpass => ?_⟩
      have hlt := hpass.1
      omega
    next hopen =>
    split
    · next hterm => exact hskip fun hpass => hterm hpass.2.1
    next hterm =>
    split
    · next hmaj =>
      right
      exact ⟨⟨le_rfl, not_le.mp hopen, not_not.mp hterm, hmaj⟩, fun n hn => hn.1⟩
    · next hmaj => exact hskip fun hpass => hmaj hpass.2.2

/-- What passes the tests of `computeCommit`. -/
theorem passes_iff (s : Server) (n : ℕ) :
    Passes s.logEntries s.metadata.currentTerm s.matchMap ((s.peers.length + 1) / 2 + 1)
      s.metadata.commitIndex n ↔ s.CountedOnce n := by
  rw [Passes, CountedOnce, matchMap, List.countP_map]
  rfl

/-- With each peer counted once there are no more. -/
theorem CountedOnce.mayCommit {n : ℕ} (h : s.CountedOnce n) : s.MayCommit n := by
  refine ⟨h.1, h.2.1, h.2.2.trans ?_⟩
  exact Nat.add_le_add_left s.peers.dedup_sublist.countP_le 1

/-- **What `computeCommit` returns.** -/
theorem computeCommit_rule (s : Server) {c : ℕ}
    (hc : UnitTests.computeCommit s.logEntries s.metadata.currentTerm s.matchMap
      (s.peers.length + 1) s.metadata.commitIndex = c) :
    (c = s.metadata.commitIndex ∧ ∀ n, ¬ s.CountedOnce n) ∨ IsGreatest {n | s.CountedOnce n} c := by
  have hbound : ∀ n, s.CountedOnce n → n ≤ s.logEntries.length := fun n hn =>
    hn.mayCommit.2.le (Nat.zero_lt_of_lt hn.1)
  have hrule := @commitLoop_rule s.logEntries s.matchMap s.metadata.currentTerm
    ((s.peers.length + 1) / 2 + 1) s.metadata.commitIndex s.logEntries.length
  rw [UnitTests.computeCommit] at hc
  rw [hc] at hrule
  simp only [passes_iff] at hrule
  rcases hrule with ⟨heq, hnone⟩ | ⟨⟨hle, hpass⟩, hmax⟩
  · exact Or.inl ⟨heq, fun n hn => hnone n (hbound n hn) hn⟩
  · exact Or.inr ⟨hpass, fun n hn => hmax ⟨hbound n hn, hn⟩⟩

/-- On a leader, `computeCommit` falls behind where only the count of entries makes a majority. -/
theorem computeCommit_leader (hrole : s.role = .leader) (hlog : Indexed s.logEntries) :
    UnitTests.computeCommit s.logEntries s.metadata.currentTerm s.matchMap
        (s.peers.length + 1) s.metadata.commitIndex = s.advanceCommit.metadata.commitIndex ↔
      ∀ n, s.MayCommit n → ∃ m, n ≤ m ∧ s.CountedOnce m := by
  generalize hc : UnitTests.computeCommit s.logEntries s.metadata.currentTerm s.matchMap
    (s.peers.length + 1) s.metadata.commitIndex = c
  have hcount := s.computeCommit_rule hc
  rcases advanceCommit_rule hrole hlog with ⟨hsame, hnone⟩ | ⟨k, ⟨hmay, hmax⟩, hk, -⟩
  · rw [hsame]
    rcases hcount with ⟨heq, -⟩ | ⟨hcounted, -⟩
    · exact ⟨fun _ n hn => absurd hn (hnone n), fun _ => heq⟩
    · exact absurd hcounted.mayCommit (hnone c)
  · rw [hk]
    constructor
    · rintro rfl n hn
      rcases hcount with ⟨heq, -⟩ | ⟨hcounted, -⟩
      · exact absurd hmay.1 (by omega)
      · exact ⟨c, hmax hn, hcounted⟩
    · intro h
      obtain ⟨m, hkm, hm⟩ := h k hmay
      rcases hcount with ⟨-, hnone⟩ | ⟨hcounted, hmax'⟩
      · exact absurd hm (hnone m)
      · exact le_antisymm (hmax hcounted.mayCommit) (hkm.trans (hmax' hm))

/-- On another node `advanceCommit` does nothing, and `computeCommit` may. -/
theorem computeCommit_other (hrole : s.role ≠ .leader) :
    UnitTests.computeCommit s.logEntries s.metadata.currentTerm s.matchMap
        (s.peers.length + 1) s.metadata.commitIndex = s.advanceCommit.metadata.commitIndex ↔
      ∀ n, ¬ s.CountedOnce n := by
  have hsame : s.advanceCommit = s := by rw [advanceCommit, if_pos hrole]
  rw [hsame]
  generalize hc : UnitTests.computeCommit s.logEntries s.metadata.currentTerm s.matchMap
    (s.peers.length + 1) s.metadata.commitIndex = c
  rcases s.computeCommit_rule hc with ⟨heq, hnone⟩ | ⟨hcounted, hmax⟩
  · exact ⟨fun _ => hnone, fun _ => heq⟩
  · constructor
    · intro heq
      exact absurd hcounted.1 (by omega)
    · intro hnone
      exact absurd hcounted (hnone c)

/-- Where no peer is listed twice, a leader's commit is that of the tests. -/
theorem CountedOnce.of_nodup (hnodup : s.peers.Nodup) {n : ℕ} (h : s.MayCommit n) :
    s.CountedOnce n := by
  refine ⟨h.1, h.2.1, ?_⟩
  rw [hnodup.dedup]
  exact h.2.2

/-! ## All three -/

/-- **When the models of the tests agree with the server.** -/
theorem agrees_iff_matched (hlog : Indexed s.logEntries) (vote : RequestVoteArgs)
    (append : AppendEntriesArgs) : s.Agrees vote append ↔ s.Matched vote := by
  constructor
  · intro h
    refine ⟨(voteGranted_iff s vote).mp h.vote, fun hrole => ?_, fun hrole => ?_⟩
    · exact (computeCommit_leader hrole hlog).mp h.commit
    · exact (computeCommit_other hrole).mp h.commit
  · intro h
    refine ⟨(voteGranted_iff s vote).mpr h.vote, appendEntries_eq, ?_⟩
    by_cases hrole : s.role = .leader
    · exact (computeCommit_leader hrole hlog).mpr (h.leader hrole)
    · exact (computeCommit_other hrole).mpr (h.other hrole)

end Server

/-- A leader whose peers are three nodes. -/
theorem agrees_iff_matched_leader :
    (leaderOfTwoTerms 2).Agrees ⟨2, 3, 9, 2⟩ ⟨3, 2, 1, 1, [⟨3, 2, Command.default⟩], 0⟩ := by
  have hindexed : Indexed (leaderOfTwoTerms 2).logEntries :=
    Indexed.append_singleton (Indexed.append_singleton Indexed.nil rfl) rfl
  refine (Server.agrees_iff_matched hindexed _ _).mpr ⟨by decide, fun _ n hn => ?_, fun h => ?_⟩
  · exact ⟨n, le_rfl, .of_nodup (by decide) hn⟩
  · exact absurd rfl h

/-- A follower that has voted for node 2 in term 5. -/
def votedInFive : Server := { Server.new 1 [2, 3] with metadata := ⟨5, 2, 0, 0⟩ }

/-- **The server gives a vote that the tests deny**: node 3 asks in term 6. -/
theorem votedInFive_disagrees : Indexed votedInFive.logEntries ∧
    UnitTests.voteGranted 5 2 votedInFive.getLastLogIndex votedInFive.getLastLogTerm ⟨6, 3, 0, 0⟩ =
      false ∧ (votedInFive.handleRequestVote ⟨6, 3, 0, 0⟩).1.voteGranted = true ∧
    ¬ ∀ (s : Server) (vote : RequestVoteArgs) (append : AppendEntriesArgs),
      Indexed s.logEntries → s.Agrees vote append := by
  refine ⟨Indexed.nil, rfl, rfl, fun h => ?_⟩
  have hvote := (h votedInFive ⟨6, 3, 0, 0⟩ ⟨6, 3, 0, 0, [], 0⟩ Indexed.nil).vote
  exact absurd hvote (by decide)

end RaftConsensus
