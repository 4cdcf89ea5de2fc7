import RaftConsensus.AnyDisk
import RaftConsensus.Arguments
import RaftConsensus.Election
import RaftConsensus.Library.Runs
import Mathlib.Data.Finset.Powerset
import Mathlib.Data.List.Perm.Subperm

/-!
# Quorums and the list of peers

`main` accepts a list of peers that names an id twice, or that names the node itself.  The server
counts by this list: `sendRequestVoteToAll` starts a thread for each entry and each vote that a
thread brings adds one to `votes_received`, `advanceCommit` goes through the entries, and
`majority` uses their number.  How many *nodes* stand behind so many entries is another matter.

`Canvass.machine` is a node with the threads of `sendRequestVoteToAll`.  Its trace has, for each
election won and each advance of the commit index, the nodes that stand behind it.

* `Startup.Balanced`: no half of the nodes owns half of the entries.
* `quorum_iff_balanced`: this is when every decision has more than half of the nodes behind it.
-/

namespace RaftConsensus

/-! ## What a section marks as committed -/

namespace Server

variable {s s' s'' : Server}

/-- The configuration stays, the term does not fall, and no new advance of the commit index is
marked. -/
structure CommitsNone (s s' : Server) : Prop where
  nodeId : s'.nodeId = s.nodeId
  peers : s'.peers = s.peers
  term : s.metadata.currentTerm ≤ s'.metadata.currentTerm
  mark : ∀ {t n log}, .advanceCommit t n log ∈ s'.effects → .advanceCommit t n log ∈ s.effects

/-- The same, except that an advance may be marked to what a majority of the entries has. -/
structure CommitsCounted (s s' : Server) : Prop where
  nodeId : s'.nodeId = s.nodeId
  peers : s'.peers = s.peers
  term : s.metadata.currentTerm ≤ s'.metadata.currentTerm
  mark : ∀ {t n log}, .advanceCommit t n log ∈ s'.effects →
    .advanceCommit t n log ∈ s.effects ∨ s'.majority ≤ s'.replicas n

theorem CommitsNone.refl (s : Server) : CommitsNone s s := ⟨rfl, rfl, le_rfl, id⟩

theorem CommitsNone.counted (h : CommitsNone s s') : CommitsCounted s s' :=
  ⟨h.nodeId, h.peers, h.term, fun hm => Or.inl (h.mark hm)⟩

theorem CommitsNone.trans (h : CommitsNone s s') (h' : CommitsNone s' s'') : CommitsNone s s'' :=
  ⟨h'.nodeId.trans h.nodeId, h'.peers.trans h.peers, h.term.trans h'.term,
    fun hm => h.mark (h'.mark hm)⟩

theorem CommitsNone.trans_counted (h : CommitsNone s s') (h' : CommitsCounted s' s'') :
    CommitsCounted s s'' :=
  ⟨h'.nodeId.trans h.nodeId, h'.peers.trans h.peers, h.term.trans h'.term,
    fun hm => (h'.mark hm).imp_left h.mark⟩

theorem CommitsNone.emit (s : Server) {e : Effect} (he : ∀ t n log, e ≠ .advanceCommit t n log) :
    CommitsNone s (s.emit e) where
  nodeId := rfl
  peers := rfl
  term := le_rfl
  mark hm := by
    rcases List.mem_append.mp hm with hm | hm
    · exact hm
    · exact absurd (List.mem_singleton.mp hm).symm (he _ _ _)

theorem applyCommitted_commitsNone (s : Server) : CommitsNone s s.applyCommitted := by
  rw [applyCommitted_eq]
  split
  · exact .refl s
  · have happlied : CommitsNone s (s.applied s.unapplied) := by
      refine ⟨rfl, rfl, le_rfl, fun hm => ?_⟩
      rcases List.mem_append.mp hm with hm | hm
      · exact hm
      · obtain ⟨index, command, heq⟩ := mem_appliedMarks hm
        exact absurd heq (by simp)
    exact happlied.trans (.emit _ (by simp))

/-- **What `advanceCommit` commits, a majority of the entries has.** -/
theorem advanceCommit_counted (s : Server) : CommitsCounted s s.advanceCommit := by
  rcases s.advanceCommit_cases with heq | ⟨n, -, hscan, heq⟩
  · rw [heq]
    exact (CommitsNone.refl s).counted
  · obtain ⟨-, -, -, hmaj⟩ := commitScan_eq_some hscan
    obtain ⟨es, hc⟩ := s.advanceCommit_commits
    refine ⟨hc.nodeId, hc.peers, hc.currentTerm.ge, fun hm => ?_⟩
    have hraised := applyCommitted_commitsNone
      ({ s with metadata := { s.metadata with commitIndex := n } }.emit
        (.advanceCommit s.metadata.currentTerm n s.logEntries))
    rw [heq] at hm
    rcases List.mem_append.mp (hraised.mark hm) with hm | hm
    · exact Or.inl hm
    · obtain ⟨-, rfl, -⟩ := Effect.advanceCommit.inj (List.mem_singleton.mp hm)
      right
      rw [majority, replicas, hc.peers, hc.matchIndex]
      exact hmaj

theorem stepDown_commitsNone {t : ℕ} (h : s.metadata.currentTerm ≤ t) :
    CommitsNone s (s.stepDown t) := by
  refine ⟨rfl, rfl, h, fun hm => ?_⟩
  rcases List.mem_append.mp hm with hm | hm
  · exact hm
  · exact absurd (List.mem_singleton.mp hm) (by simp)

theorem becomeLeader_counted (s : Server) : CommitsCounted s s.becomeLeader := by
  have hlead : CommitsNone s s.takeLead := by
    have hmark : CommitsNone s (s.emit (.becomeLeader s.metadata.currentTerm s.logEntries)) :=
      .emit s (by simp)
    exact ⟨rfl, rfl, le_rfl, hmark.mark⟩
  have happend : CommitsNone s.takeLead (s.takeLead.appendEntry s.takeLead.noop) := by
    have hwrite := CommitsNone.emit
      { s.takeLead with logEntries := s.takeLead.logEntries ++ [s.takeLead.noop] }
      (e := .writelog s.takeLead.noop) (by simp)
    exact ⟨rfl, rfl, le_rfl, hwrite.mark⟩
  have hreset : CommitsNone (s.takeLead.appendEntry s.takeLead.noop)
      (s.takeLead.appendEntry s.takeLead.noop).resetPeers := ⟨rfl, rfl, le_rfl, id⟩
  exact ((hlead.trans happend).trans hreset).trans_counted (advanceCommit_counted _)

theorem handleRequestVote_commitsNone (s : Server) (args : RequestVoteArgs) :
    CommitsNone s (s.handleRequestVote args).2 := by
  have hmeet : CommitsNone s (s.meetTerm args.term) := by
    unfold meetTerm
    split
    · next hlt => exact stepDown_commitsNone hlt.le
    · exact .refl s
  generalize hr : s.handleRequestVote args = r
  cases handleRequestVote_way hr with
  | old => exact .refl s
  | granted =>
    generalize s.meetTerm args.term = s' at hmeet ⊢
    have hvote : CommitsNone s'
        { s' with metadata := { s'.metadata with votedFor := args.candidateId } } :=
      ⟨rfl, rfl, le_rfl, id⟩
    exact ((hmeet.trans hvote).trans (.emit _ (by simp))).trans
      (.emit _ (e := .votedFor args.candidateId s'.metadata.currentTerm) (by simp))
  | denied => exact hmeet

theorem recognizeLeader_commitsNone (s : Server) (args : AppendEntriesArgs) :
    CommitsNone s (s.recognizeLeader args) := by
  unfold recognizeLeader
  dsimp only
  split
  · next hlt =>
    have hdown := stepDown_commitsNone hlt.le
    exact ⟨rfl, rfl, hlt.le, hdown.mark⟩
  · exact ⟨rfl, rfl, le_rfl, id⟩

theorem followCommit_commitsNone (s : Server) (args : AppendEntriesArgs) :
    CommitsNone s (s.followCommit args) := by
  unfold followCommit
  split
  · extract_lets lastNew newCommit
    split
    · have hraise : CommitsNone s
          { s with metadata := { s.metadata with commitIndex := newCommit } } :=
        ⟨rfl, rfl, le_rfl, id⟩
      exact (hraise.trans (.emit _ (by simp))).trans (applyCommitted_commitsNone _)
    · exact .refl s
  · exact .refl s

theorem handleAppendEntries_commitsNone {args : AppendEntriesArgs}
    {r : AppendEntriesReply × Server} (h : s.handleAppendEntries args = some r) :
    CommitsNone s r.2 := by
  cases handleAppendEntries_way h with
  | old => exact .refl s
  | mismatch => exact s.recognizeLeader_commitsNone args
  | stored hterm hprev s' hs' =>
    have hstore : CommitsNone (s.recognizeLeader args) s' := by
      cases storeEntries_way hs' with
      | same log => exact ⟨rfl, rfl, le_rfl, id⟩
      | rewritten log =>
        have hlog : CommitsNone (s.recognizeLeader args)
            { s.recognizeLeader args with logEntries := log } := ⟨rfl, rfl, le_rfl, id⟩
        exact hlog.trans (.emit _ (by simp))
    exact ((s.recognizeLeader_commitsNone args).trans hstore).trans (s'.followCommit_commitsNone args)

theorem handleRequestVoteReply_counted (s : Server) (t : ℕ) (reply : RequestVoteReply) :
    CommitsCounted s (s.handleRequestVoteReply t reply) := by
  have hcount : CommitsNone s s.countVote := ⟨rfl, rfl, le_rfl, id⟩
  generalize hs' : s.handleRequestVoteReply t reply = s'
  cases handleRequestVoteReply_way hs' with
  | stepsDown hlt => exact (stepDown_commitsNone hlt.le).counted
  | ignored => exact (CommitsNone.refl s).counted
  | won => exact hcount.trans_counted (becomeLeader_counted _)
  | counted => exact hcount.counted

theorem handleAppendEntriesReply_counted (s : Server) (peer : ℕ) (args : AppendEntriesArgs)
    (reply : AppendEntriesReply) : CommitsCounted s (s.handleAppendEntriesReply peer args reply) := by
  have hup : CommitsNone s (s.reached peer) := ⟨rfl, rfl, le_rfl, id⟩
  generalize hs' : s.handleAppendEntriesReply peer args reply = s'
  cases handleAppendEntriesReply_way hs' with
  | stepsDown hlt => exact (hup.trans (stepDown_commitsNone hlt.le)).counted
  | ignored => exact hup.counted
  | credited =>
    rw [creditPeer_eq]
    refine CommitsNone.trans_counted ?_ (advanceCommit_counted _)
    exact ⟨rfl, rfl, le_rfl, id⟩
  | backed => exact ⟨rfl, rfl, le_rfl, Or.inl⟩

theorem electionTimeout_counted (hwrap : s.metadata.currentTerm + 1 < 2 ^ 64) {r : Bool × Server}
    (h : s.electionTimeout = some r) : CommitsCounted s r.2 := by
  have hcand : CommitsNone s s.becomeCandidate := by
    refine ⟨rfl, rfl, ?_, fun hm => ?_⟩
    · show s.metadata.currentTerm ≤ (s.metadata.currentTerm + 1) % 2 ^ 64
      rw [Nat.mod_eq_of_lt hwrap]
      exact Nat.le_succ _
    · simpa [becomeCandidate, persistMetaData, Server.emit] using hm
  cases electionTimeout_way h with
  | alone => exact hcand.trans_counted (becomeLeader_counted _)
  | campaigns => exact hcand.counted

theorem propose_counted {request : Request} {w : Waiter} (h : s.propose request = some (w, s')) :
    CommitsCounted s s' := by
  obtain ⟨-, -, rfl⟩ := propose_eq h
  have hpush : CommitsNone s { s with logEntries := s.logEntries ++ [w.entry] } :=
    ⟨rfl, rfl, le_rfl, id⟩
  exact (hpush.trans (.emit _ (by simp))).trans_counted (advanceCommit_counted _)

end Server

/-- **Every section commits what a majority of the entries has.** -/
theorem Node.handle_counted {n m : Node} {x : Input} {os : List Output}
    (hwrap : x = .electionTimeout → n.server.metadata.currentTerm + 1 < 2 ^ 64)
    (hm : n.handle x = some (m, os)) : n.server.CommitsCounted m.server := by
  have same : n.server.CommitsCounted n.server := (Server.CommitsNone.refl _).counted
  cases handle_section hm with
  | requestVote args => exact (n.server.handleRequestVote_commitsNone args).counted
  | appendEntries args r hr => exact (Server.handleAppendEntries_commitsNone hr).counted
  | requestVoteReply t reply => exact n.server.handleRequestVoteReply_counted t reply
  | appendEntriesReply peer args reply =>
    exact n.server.handleAppendEntriesReply_counted peer args reply
  | contactFailed peer => exact ⟨rfl, rfl, le_rfl, Or.inl⟩
  | electionTimeout r hr => exact Server.electionTimeout_counted (hwrap rfl) hr
  | proposed request w s hp => exact Server.propose_counted hp
  | atOnce request w s hp => exact Server.propose_counted hp
  | sendRequestVotes | replicate | refused | wake => exact same

/-! ## The list of peers -/

namespace Startup

/-- The ids in the list, entry by entry. -/
def peerIds (args : Startup) : List ℕ := args.peers.map Peer.id

/-- The nodes: this one, and those in the list. -/
def ids (args : Startup) : Finset ℕ := insert args.nodeId args.peerIds.toFinset

/-- No half of the nodes that has this one in it owns half of the entries, or more. -/
def Balanced (args : Startup) : Prop :=
  ∀ A ⊆ args.ids, args.nodeId ∈ A → 2 * A.card ≤ args.ids.card →
    args.peerIds.countP (· ∈ A) < (args.peers.length + 1) / 2

instance (args : Startup) : Decidable args.Balanced :=
  decidable_of_iff (∀ A ∈ args.ids.powerset, args.nodeId ∈ A → 2 * A.card ≤ args.ids.card →
    args.peerIds.countP (· ∈ A) < (args.peers.length + 1) / 2) (by simp [Balanced])

/-- A set of nodes that counts as a majority: this one, with the owners of half of the entries. -/
structure Backs (args : Startup) (A : Finset ℕ) : Prop where
  subset : A ⊆ args.ids
  self : args.nodeId ∈ A
  half : (args.peers.length + 1) / 2 ≤ args.peerIds.countP (· ∈ A)

theorem balanced_iff (args : Startup) :
    args.Balanced ↔ ∀ A, args.Backs A → args.ids.card < 2 * A.card := by
  constructor
  · intro h A hA
    by_contra hcard
    exact absurd (h A hA.subset hA.self (not_lt.mp hcard)) (not_lt.mpr hA.half)
  · intro h A hsub hself hcard
    by_contra hhalf
    exact absurd (h A ⟨hsub, hself, not_lt.mp hhalf⟩) (not_lt.mpr hcard)

/-- Where no entry is repeated and none is the node itself, the list is balanced. -/
theorem balanced_of_nodup {args : Startup} (hnodup : args.peerIds.Nodup)
    (hself : args.nodeId ∉ args.peerIds) : args.Balanced := by
  intro A hsub hmem hcard
  have hids : args.ids.card = args.peers.length + 1 := by
    rw [ids, Finset.card_insert_of_notMem (by simpa using hself),
      List.toFinset_card_of_nodup hnodup, peerIds, List.length_map]
  have hfilter : (args.peerIds.filter (· ∈ A)).toFinset ⊆ A.erase args.nodeId := by
    intro p hp
    obtain ⟨hp, hpA⟩ := List.mem_filter.mp (List.mem_toFinset.mp hp)
    exact Finset.mem_erase.mpr ⟨fun heq => hself (heq ▸ hp), of_decide_eq_true hpA⟩
  have hle := Finset.card_le_card hfilter
  rw [List.toFinset_card_of_nodup (hnodup.filter _), ← List.countP_eq_length_filter,
    Finset.card_erase_of_mem hmem] at hle
  have hpos : 0 < A.card := Finset.card_pos.mpr ⟨_, hmem⟩
  omega

end Startup

/-! ## The threads of an election -/

/-- A node with the threads of `sendRequestVoteToAll`. -/
structure Canvass where
  node : Node
  /-- the threads that have not handled a reply: whom they ask, and in which term -/
  threads : List (ℕ × ℕ)
  /-- who gave the votes that were counted since the last candidacy -/
  granted : List ℕ

/-- A decision, with the nodes that stand behind it. -/
inductive Quorum
  | elected (nodes : Finset ℕ)
  | committed (commitIndex : ℕ) (nodes : Finset ℕ)
  deriving DecidableEq

def Quorum.nodes : Quorum → Finset ℕ
  | elected nodes => nodes
  | committed _ nodes => nodes

namespace Server

/-- The nodes that the leader credits with its log up to `n`, itself included. -/
def credited (s : Server) (n : ℕ) : Finset ℕ :=
  insert s.nodeId (s.peers.filter fun p => decide (n ≤ s.matchIndex p)).toFinset

/-- The decision that an effect marks. -/
def quorum (s : Server) (granted : List ℕ) : Effect → Option Quorum
  | .becomeLeader _ _ => some (.elected (insert s.nodeId granted.toFinset))
  | .advanceCommit _ n _ => some (.committed n (s.credited n))
  | _ => none

/-- Whether a reply is a vote that is counted. -/
def countsVote (s : Server) (electionTerm : ℕ) (reply : RequestVoteReply) : Bool :=
  reply.term ≤ s.metadata.currentTerm && s.role = .candidate &&
    s.metadata.currentTerm = electionTerm && reply.voteGranted

end Server

namespace Canvass

/-- What happens: a section of a thread that is not one of `sendRequestVoteToAll`, or one of these
handles its reply. -/
inductive Action
  | run (x : Input)
  | reply (peer electionTerm : ℕ) (reply : RequestVoteReply)
  deriving DecidableEq, Repr

/-- The threads after a section: one for each entry of the list after `sendRequestVoteToAll`. -/
def threadsAfter (c : Canvass) : Input → List (ℕ × ℕ)
  | .sendRequestVotes =>
    c.threads ++ c.node.server.peers.map fun p => (p, c.node.server.metadata.currentTerm)
  | _ => c.threads

/-- A candidacy starts the count anew. -/
def grantedAfter (c : Canvass) : Input → List ℕ
  | .electionTimeout => []
  | _ => c.granted

def step (c : Canvass) : Action → Option (Canvass × List Quorum)
  | .run (.requestVoteReply _ _) => none
  | .run x =>
    (c.node.handle x).map fun r =>
      (⟨r.1.flush, c.threadsAfter x, c.grantedAfter x⟩,
        r.1.server.effects.filterMap (r.1.server.quorum (c.grantedAfter x)))
  | .reply peer electionTerm reply =>
    if (peer, electionTerm) ∈ c.threads then
      let granted :=
        if c.node.server.countsVote electionTerm reply then c.granted ++ [peer] else c.granted
      (c.node.handle (.requestVoteReply electionTerm reply)).map fun r =>
        (⟨r.1.flush, c.threads.erase (peer, electionTerm), granted⟩,
          r.1.server.effects.filterMap (r.1.server.quorum granted))
    else none

theorem step_run {c : Canvass} {x : Input} (hx : ∀ t reply, x ≠ .requestVoteReply t reply) :
    c.step (.run x) = (c.node.handle x).map fun r =>
      (⟨r.1.flush, c.threadsAfter x, c.grantedAfter x⟩,
        r.1.server.effects.filterMap (r.1.server.quorum (c.grantedAfter x))) := by
  cases x with
  | requestVoteReply t reply => exact absurd rfl (hx t reply)
  | _ => rfl

/-- A server that `main` has built, on given files. -/
def machine (args : Startup) (files : Files) : Machine Canvass Action Quorum where
  init := ⟨Node.start args.nodeId args.peerIds files 0, [], []⟩
  step := step

theorem machine_step (args : Startup) (files : Files) (c : Canvass) (a : Action) :
    (machine args files).step c a = c.step a := rfl

/-- The term of the node can be raised. -/
def TermFits (c : Canvass) (a : Action) : Prop :=
  a = .run .electionTimeout → c.node.server.metadata.currentTerm + 1 < 2 ^ 64

instance (c : Canvass) (a : Action) : Decidable (c.TermFits a) :=
  inferInstanceAs (Decidable (_ → _))

/-! ## What is behind a decision -/

/-- The entries that were asked in a term and have not answered. -/
def asked (threads : List (ℕ × ℕ)) (t : ℕ) : List ℕ :=
  (threads.filter fun th => decide (th.2 = t)).map Prod.fst

/-- How a candidate stands: each vote is its own or that of an entry, and no entry is counted
twice. -/
structure Counting (args : Startup) (c : Canvass) : Prop where
  fresh : c.node.campaigning = true →
    c.granted = [] ∧ asked c.threads c.node.server.metadata.currentTerm = []
  votes : c.node.server.votesReceived ≤ 1 + c.granted.length
  entries : (c.granted ++ asked c.threads c.node.server.metadata.currentTerm).Subperm args.peerIds

structure Tally (args : Startup) (c : Canvass) : Prop where
  nodeId : c.node.server.nodeId = args.nodeId
  peers : c.node.server.peers = args.peerIds
  clean : c.node.server.effects = []
  thread_le : ∀ th ∈ c.threads, th.2 ≤ c.node.server.metadata.currentTerm
  counting : c.node.server.role = .candidate → Counting args c

variable {args : Startup} {c : Canvass} {m : Node}

theorem asked_append (threads threads' : List (ℕ × ℕ)) (t : ℕ) :
    asked (threads ++ threads') t = asked threads t ++ asked threads' t := by
  rw [asked, List.filter_append, List.map_append]
  rfl

/-- All the threads of one term. -/
theorem asked_map (ps : List ℕ) (t : ℕ) : asked (ps.map fun p => (p, t)) t = ps := by
  rw [asked, List.filter_eq_self.mpr (by simp), List.map_map]
  exact List.map_id ps

/-- No thread asks in a term that the node has not reached. -/
theorem asked_eq_nil {threads : List (ℕ × ℕ)} {t : ℕ} (h : ∀ th ∈ threads, th.2 < t) :
    asked threads t = [] := by
  rw [asked, List.map_eq_nil_iff, List.filter_eq_nil_iff]
  intro th hth
  simpa using (h th hth).ne

/-- A thread that is done asks no more. -/
theorem asked_erase {threads : List (ℕ × ℕ)} {p t : ℕ} (h : (p, t) ∈ threads) :
    (asked threads t).Perm (p :: asked (threads.erase (p, t)) t) := by
  have hperm := ((List.perm_cons_erase h).filter fun th => decide (th.2 = t)).map Prod.fst
  rwa [List.filter_cons_of_pos (by simp)] at hperm

theorem asked_erase_subperm (threads : List (ℕ × ℕ)) (th : ℕ × ℕ) (t : ℕ) :
    (asked (threads.erase th) t).Subperm (asked threads t) :=
  ((List.erase_sublist.filter _).map _).subperm

/-- The tally after a section, from what it says of a candidate. -/
theorem Tally.of_counted (h : Tally args c) (hm : c.node.server.CommitsCounted m.server)
    {threads : List (ℕ × ℕ)} {granted : List ℕ}
    (hthreads : ∀ th ∈ threads, th.2 ≤ c.node.server.metadata.currentTerm)
    (hcounting : m.server.role = .candidate → Counting args ⟨m, threads, granted⟩) :
    Tally args ⟨m.flush, threads, granted⟩ where
  nodeId := hm.nodeId.trans h.nodeId
  peers := hm.peers.trans h.peers
  clean := rfl
  thread_le th hth := (hthreads th hth).trans hm.term
  counting hrole := ⟨(hcounting hrole).fresh, (hcounting hrole).votes, (hcounting hrole).entries⟩

/-- The threads and the count stay as they are. -/
theorem Tally.quiet (h : Tally args c) (hm : c.node.server.CommitsCounted m.server)
    (hq : c.node.server.Quiet m.server)
    (hcamp : m.campaigning = true → c.node.campaigning = true) :
    Tally args ⟨m.flush, c.threads, c.granted⟩ := by
  refine h.of_counted hm h.thread_le fun hrole => ?_
  obtain ⟨hrole', hterm, hvotes⟩ := hq.candidate hrole
  have hcounting := h.counting hrole'
  refine ⟨fun hc => ?_, ?_, ?_⟩
  · rw [hterm]
    exact hcounting.fresh (hcamp hc)
  · rw [hvotes]
    exact hcounting.votes
  · rw [hterm]
    exact hcounting.entries

/-- `sendRequestVoteToAll` asks each entry once. -/
theorem Tally.sent (h : Tally args c) (hcamp : c.node.campaigning = true) :
    Tally args ⟨Node.flush { c.node with campaigning := false },
      c.threadsAfter .sendRequestVotes, c.granted⟩ := by
  refine h.of_counted (m := { c.node with campaigning := false })
    (Server.CommitsNone.refl _).counted (fun th hth => ?_) fun hrole => ?_
  · rcases List.mem_append.mp hth with hth | hth
    · exact h.thread_le th hth
    · obtain ⟨p, -, rfl⟩ := List.mem_map.mp hth
      exact le_rfl
  · obtain ⟨hnil, hasked⟩ := (h.counting hrole).fresh hcamp
    refine ⟨fun hc => absurd hc (by simp), (h.counting hrole).votes, ?_⟩
    show (c.granted ++ asked (c.threads ++ _) c.node.server.metadata.currentTerm).Subperm _
    rw [asked_append, hasked, asked_map, hnil, h.peers]
    exact .refl _

/-- A candidacy starts with one vote, and no entry was asked in its term. -/
theorem Tally.timeout (h : Tally args c) (hwrap : c.node.server.metadata.currentTerm + 1 < 2 ^ 64)
    {r : Bool × Server} (hr : c.node.server.electionTimeout = some r) :
    Tally args
      ⟨Node.flush { c.node with server := r.2, campaigning := r.1 }, c.threads, []⟩ := by
  refine h.of_counted (Server.electionTimeout_counted hwrap hr) h.thread_le fun hrole => ?_
  cases Server.electionTimeout_way hr with
  | alone =>
    obtain ⟨-, -, -, hlead, -⟩ := c.node.server.becomeCandidate.becomeLeader_eq
    exact absurd (hlead.symm.trans hrole) (by simp)
  | campaigns =>
    have hterm : c.node.server.becomeCandidate.metadata.currentTerm =
        c.node.server.metadata.currentTerm + 1 := Nat.mod_eq_of_lt hwrap
    have hnil : asked c.threads c.node.server.becomeCandidate.metadata.currentTerm = [] := by
      rw [hterm]
      exact asked_eq_nil fun th hth => Nat.lt_succ_of_le (h.thread_le th hth)
    refine ⟨fun _ => ⟨rfl, hnil⟩, le_rfl, ?_⟩
    show ([] ++ asked c.threads c.node.server.becomeCandidate.metadata.currentTerm).Subperm _
    rw [hnil]
    exact List.nil_subperm

/-- A thread of the current term brings a vote: its entry is counted, and asks no more. -/
theorem Counting.grant (h : Counting args c) {p : ℕ}
    (hthread : (p, c.node.server.metadata.currentTerm) ∈ c.threads) :
    ((c.granted ++ [p]) ++ asked (c.threads.erase (p, c.node.server.metadata.currentTerm))
      c.node.server.metadata.currentTerm).Subperm args.peerIds := by
  rw [List.append_assoc, List.singleton_append]
  exact ((asked_erase hthread).append_left c.granted).symm.subperm.trans h.entries

/-- **A reply that is counted.** -/
theorem countsVote_iff {s : Server} {t : ℕ} {reply : RequestVoteReply} :
    s.countsVote t reply = true ↔ ¬ s.metadata.currentTerm < reply.term ∧ s.role = .candidate ∧
      s.metadata.currentTerm = t ∧ reply.voteGranted = true := by
  rw [Server.countsVote, Bool.and_eq_true, Bool.and_eq_true, Bool.and_eq_true, decide_eq_true_eq,
    decide_eq_true_eq, decide_eq_true_eq, not_lt]
  tauto

/-- A candidate after a reply was one before, with at most one vote less. -/
theorem handleRequestVoteReply_candidate {s : Server} {t : ℕ} {reply : RequestVoteReply}
    (hrole : (s.handleRequestVoteReply t reply).role = .candidate) : s.role = .candidate ∧
      (s.handleRequestVoteReply t reply).metadata.currentTerm = s.metadata.currentTerm ∧
      (s.handleRequestVoteReply t reply).votesReceived ≤
        s.votesReceived + if s.countsVote t reply then 1 else 0 := by
  generalize hs' : s.handleRequestVoteReply t reply = s' at hrole ⊢
  cases Server.handleRequestVoteReply_way hs' with
  | stepsDown =>
    exact absurd hrole (by simp [Server.stepDown, Server.persistMetaData, Server.emit])
  | ignored => exact ⟨hrole, rfl, Nat.le_add_right _ _⟩
  | won =>
    obtain ⟨-, -, -, hlead, -⟩ := s.countVote.becomeLeader_eq
    exact absurd (hlead.symm.trans hrole) (by simp)
  | counted hterm hcand hsame hgranted =>
    rw [if_pos (countsVote_iff.mpr ⟨hterm, hcand, hsame, hgranted⟩)]
    exact ⟨hcand, rfl, Nat.mod_le _ _⟩

/-- A thread is done, and has brought no vote. -/
theorem Counting.done (h : Counting args c) (th : ℕ × ℕ) :
    Counting args { c with threads := c.threads.erase th } := by
  have herase := asked_erase_subperm c.threads th c.node.server.metadata.currentTerm
  refine ⟨fun hcamp => ?_, h.votes, ((List.subperm_append_left _).mpr herase).trans h.entries⟩
  obtain ⟨hgranted, hnil⟩ := h.fresh hcamp
  rw [hnil, List.subperm_nil] at herase
  exact ⟨hgranted, herase⟩

/-- The section that handles the reply of a thread. -/
theorem Tally.reply (h : Tally args c) {p t : ℕ} (hthread : (p, t) ∈ c.threads)
    (reply : RequestVoteReply) :
    Tally args
      ⟨Node.flush { c.node with server := c.node.server.handleRequestVoteReply t reply },
        c.threads.erase (p, t),
        if c.node.server.countsVote t reply then c.granted ++ [p] else c.granted⟩ := by
  refine h.of_counted
    (m := { c.node with server := c.node.server.handleRequestVoteReply t reply })
    (c.node.server.handleRequestVoteReply_counted t reply)
    (fun th hth => h.thread_le th (List.mem_of_mem_erase hth)) fun hrole => ?_
  obtain ⟨hcand, hterm, hvotes⟩ := handleRequestVoteReply_candidate hrole
  have hcounting := h.counting hcand
  by_cases hcount : c.node.server.countsVote t reply = true
  · obtain ⟨-, -, rfl, -⟩ := countsVote_iff.mp hcount
    rw [if_pos hcount] at hvotes ⊢
    refine ⟨fun hcamp => ?_, ?_, ?_⟩
    · obtain ⟨-, hnil⟩ := hcounting.fresh hcamp
      have hmem := (asked_erase hthread).mem_iff.mpr List.mem_cons_self
      rw [hnil] at hmem
      exact absurd hmem List.not_mem_nil
    · rw [List.length_append, List.length_singleton]
      have hle := hcounting.votes
      exact hvotes.trans (by omega)
    · rw [hterm]
      exact hcounting.grant hthread
  · rw [if_neg hcount] at hvotes ⊢
    obtain ⟨hfresh, hle, hentries⟩ := hcounting.done (p, t)
    refine ⟨fun hcamp => ?_, hvotes.trans hle, ?_⟩
    · rw [hterm]
      exact hfresh hcamp
    · rw [hterm]
      exact hentries

/-! ## Every decision -/

/-- What a section marks as decided. -/
theorem mem_decisions {s : Server} {granted : List ℕ} {q : Quorum}
    (h : q ∈ s.effects.filterMap (s.quorum granted)) :
    (∃ t log, .becomeLeader t log ∈ s.effects ∧ q = .elected (insert s.nodeId granted.toFinset)) ∨
      ∃ t n log, .advanceCommit t n log ∈ s.effects ∧ q = .committed n (s.credited n) := by
  obtain ⟨e, he, hq⟩ := List.mem_filterMap.mp h
  cases e with
  | becomeLeader t log => exact Or.inl ⟨t, log, he, (Option.some.inj hq).symm⟩
  | advanceCommit t n log => exact Or.inr ⟨t, n, log, he, (Option.some.inj hq).symm⟩
  | _ => exact absurd hq (by simp [Server.quorum])

/-- A list of owners of as many entries as a majority needs. -/
theorem backs_of_subperm {ps : List ℕ} (hps : ps.Subperm args.peerIds)
    (hlen : (args.peers.length + 1) / 2 ≤ ps.length) :
    args.Backs (insert args.nodeId ps.toFinset) where
  subset := by
    refine Finset.insert_subset_insert _ fun p hp => ?_
    exact List.mem_toFinset.mpr (hps.subset (List.mem_toFinset.mp hp))
  self := Finset.mem_insert_self _ _
  half := by
    have hall : ps.countP (· ∈ insert args.nodeId ps.toFinset) = ps.length := by
      refine List.countP_eq_length.mpr fun p hp => decide_eq_true ?_
      exact Finset.mem_insert_of_mem (List.mem_toFinset.mpr hp)
    rw [← hall] at hlen
    exact hlen.trans (hps.countP_le _)

/-- **Who is credited with a commit index backs it.** -/
theorem Tally.credited (h : Tally args c) (hm : c.node.server.CommitsCounted m.server)
    {t n : ℕ} {log : List LogEntry} (hmark : .advanceCommit t n log ∈ m.server.effects) :
    args.Backs (m.server.credited n) := by
  have hmaj : m.server.majority ≤ m.server.replicas n := by
    rcases hm.mark hmark with hold | hmaj
    · rw [h.clean] at hold
      exact absurd hold List.not_mem_nil
    · exact hmaj
  rw [Server.majority, Server.replicas, hm.peers, h.peers, List.countP_eq_length_filter,
    Startup.peerIds, List.length_map] at hmaj
  rw [Server.credited, hm.nodeId, h.nodeId, hm.peers, h.peers]
  exact backs_of_subperm List.filter_sublist.subperm (by rw [Startup.peerIds]; omega)

/-- Who wins without a reply is alone. -/
theorem Tally.elected_run (h : Tally args c) {x : Input} {os : List Output}
    (hx : ∀ t reply, x ≠ .requestVoteReply t reply) (hm : c.node.handle x = some (m, os))
    {t : ℕ} {log : List LogEntry} (hmark : .becomeLeader t log ∈ m.server.effects) :
    x = .electionTimeout ∧ c.node.server.majority ≤ 1 := by
  have hnone : ¬ .becomeLeader t log ∈ c.node.server.effects := by
    rw [h.clean]
    exact List.not_mem_nil
  cases Node.handle_turn hm with
  | quiet hq => exact absurd (hq.mark hmark) hnone
  | candidacy hx' hrole hterm hvotes hcand hquiet => exact absurd (hquiet hmark) hnone
  | counted hx' => exact absurd hx' (hx _ _)
  | elected pre post heff hpre hpost hrole hwin =>
    rcases hwin with ⟨hmaj, -, -, hx'⟩ | ⟨reply, hx', -⟩
    · exact ⟨hx', hmaj⟩
    · exact absurd hx' (hx _ _)

/-- **Who votes for the winner, with the winner, backs it.** -/
theorem Tally.elected_reply (h : Tally args c) {p t : ℕ} (hthread : (p, t) ∈ c.threads)
    {reply : RequestVoteReply} {u : ℕ} {log : List LogEntry}
    (hmark : .becomeLeader u log ∈ (c.node.server.handleRequestVoteReply t reply).effects) :
    args.Backs (insert args.nodeId
      (if c.node.server.countsVote t reply then c.granted ++ [p] else c.granted).toFinset) := by
  have hnone : ¬ .becomeLeader u log ∈ c.node.server.effects := by
    rw [h.clean]
    exact List.not_mem_nil
  generalize hs' : c.node.server.handleRequestVoteReply t reply = s' at hmark
  cases Server.handleRequestVoteReply_way hs' with
  | stepsDown => exact absurd ((Server.stepDown_quiet _ _).mark hmark) hnone
  | ignored => exact absurd hmark hnone
  | counted => exact absurd hmark hnone
  | won hterm hcand hsame hgranted hmaj =>
    rw [if_pos (countsVote_iff.mpr ⟨hterm, hcand, hsame, hgranted⟩)]
    subst hsame
    have hcounting := h.counting hcand
    have hsub : (c.granted ++ [p]).Subperm args.peerIds :=
      (List.sublist_append_left _ _).subperm.trans (hcounting.grant hthread)
    refine backs_of_subperm hsub ?_
    have hmaj : c.node.server.majority ≤ (c.node.server.votesReceived + 1) % 2 ^ 64 := hmaj
    have hmod := hmaj.trans (Nat.mod_le _ _)
    have hvotes := hcounting.votes
    rw [Server.majority, h.peers, Startup.peerIds, List.length_map] at hmod
    rw [List.length_append, List.length_singleton]
    omega

/-- The tally after a section of a thread of another kind. -/
theorem Tally.run (h : Tally args c) {x : Input} {os : List Output}
    (hx : ∀ t reply, x ≠ .requestVoteReply t reply)
    (hwrap : x = .electionTimeout → c.node.server.metadata.currentTerm + 1 < 2 ^ 64)
    (hm : c.node.handle x = some (m, os)) :
    Tally args ⟨m.flush, c.threadsAfter x, c.grantedAfter x⟩ := by
  by_cases htimeout : x = .electionTimeout
  · subst htimeout
    cases Node.handle_section hm with
    | electionTimeout r hr => exact h.timeout (hwrap rfl) hr
  by_cases hsend : x = .sendRequestVotes
  · subst hsend
    cases Node.handle_section hm with
    | sendRequestVotes hcamp => exact h.sent hcamp
  have hthreads : c.threadsAfter x = c.threads := by
    cases x with
    | sendRequestVotes => exact absurd rfl hsend
    | _ => rfl
  have hgranted : c.grantedAfter x = c.granted := by
    cases x with
    | electionTimeout => exact absurd rfl htimeout
    | _ => rfl
  rw [hthreads, hgranted]
  cases Node.handle_turn hm with
  | quiet hq hcamp => exact h.quiet (Node.handle_counted hwrap hm) hq hcamp
  | candidacy hx' => exact absurd hx' htimeout
  | counted hx' => exact absurd hx' (hx _ _)
  | elected pre post heff hpre hpost hrole hwin =>
    rcases hwin with ⟨-, -, -, hx'⟩ | ⟨reply, hx', -⟩
    · exact absurd hx' htimeout
    · exact absurd hx' (hx _ _)

/-- **Every step keeps the tally**, and a majority of the entries is behind what it decides. -/
theorem Tally.step (h : Tally args c) {a : Action} {c' : Canvass} {qs : List Quorum}
    (ha : c.TermFits a) (hs : c.step a = some (c', qs)) :
    Tally args c' ∧ ∀ q ∈ qs, args.Backs q.nodes := by
  cases a with
  | reply p t reply =>
    rw [Canvass.step] at hs
    split at hs
    · next hthread =>
      obtain ⟨rfl, rfl⟩ := Prod.mk.inj (Option.some.inj hs)
      refine ⟨h.reply hthread reply, fun q hq => ?_⟩
      have hcounted := c.node.server.handleRequestVoteReply_counted t reply
      rcases mem_decisions hq with ⟨u, log, hmark, rfl⟩ | ⟨u, n, log, hmark, rfl⟩
      · show args.Backs (insert _ _)
        rw [hcounted.nodeId, h.nodeId]
        exact h.elected_reply hthread hmark
      · exact h.credited (m := { c.node with
          server := c.node.server.handleRequestVoteReply t reply }) hcounted hmark
    · exact absurd hs (by simp)
  | run x =>
    have hx : ∀ t reply, x ≠ .requestVoteReply t reply := by
      rintro t reply rfl
      exact absurd hs (by simp [Canvass.step])
    rw [step_run hx] at hs
    obtain ⟨⟨m, os⟩, hm, heq⟩ := Option.map_eq_some_iff.mp hs
    obtain ⟨rfl, rfl⟩ := Prod.mk.inj heq
    have hwrap : x = .electionTimeout → c.node.server.metadata.currentTerm + 1 < 2 ^ 64 :=
      fun hx' => ha (congrArg _ hx')
    have hcounted := Node.handle_counted hwrap hm
    refine ⟨h.run hx hwrap hm, fun q hq => ?_⟩
    · rcases mem_decisions hq with ⟨u, log, hmark, rfl⟩ | ⟨u, n, log, hmark, rfl⟩
      · obtain ⟨rfl, hmaj⟩ := h.elected_run hx hm hmark
        rw [Server.majority, h.peers, Startup.peerIds, List.length_map] at hmaj
        show args.Backs (insert m.server.nodeId ([] : List ℕ).toFinset)
        rw [hcounted.nodeId, h.nodeId]
        exact backs_of_subperm List.nil_subperm (by rw [List.length_nil]; omega)
      · exact h.credited hcounted hmark

/-! ## Runs -/

theorem start_tally (args : Startup) (files : Files) : Tally args (machine args files).init := by
  have hserver := Node.start_server args.nodeId args.peerIds 0 files
  refine ⟨?_, ?_, ?_, fun th hth => absurd hth List.not_mem_nil, fun hrole => ?_⟩
  · rw [machine, hserver]
    rfl
  · rw [machine, hserver]
    rfl
  · rw [machine, hserver]
    rfl
  · rw [machine, hserver] at hrole
    exact absurd hrole (by simp [Node.restored, Server.new])

/-- **Run by run**, every decision is backed. -/
theorem backs_of_run {files : Files} {tr : List Quorum} {c : Canvass}
    (h : Run (machine args files) TermFits tr c) :
    Tally args c ∧ ∀ q ∈ tr, args.Backs q.nodes := by
  refine Run.invariant (I := fun tr c => Tally args c ∧ ∀ q ∈ tr, args.Backs q.nodes)
    ⟨start_tally args files, by simp⟩ ?_ h
  rintro tr c a c' qs - ⟨hc, htr⟩ ha hs
  obtain ⟨hc', hqs⟩ := hc.step ha hs
  refine ⟨hc', fun q hq => ?_⟩
  rcases List.mem_append.mp hq with hq | hq
  · exact htr q hq
  · exact hqs q hq

/-! ## How a few nodes win -/

theorem handleRequestVoteReply_grant {s : Server} {t : ℕ} (hrole : s.role = .candidate)
    (hterm : s.metadata.currentTerm = t) :
    s.handleRequestVoteReply t ⟨t, true⟩ =
      if s.majority ≤ s.countVote.votesReceived then s.countVote.becomeLeader
      else s.countVote := by
  rw [Server.handleRequestVoteReply, if_neg (by simp [hterm]), if_neg (by simp [hrole, hterm])]
  rfl

/-- A candidate of term `t` that the threads of `rest` still work for. -/
structure Polling (args : Startup) (t : ℕ) (rest : List ℕ) (c : Canvass) : Prop where
  nodeId : c.node.server.nodeId = args.nodeId
  peers : c.node.server.peers = args.peerIds
  role : c.node.server.role = .candidate
  term : c.node.server.metadata.currentTerm = t
  votes : c.node.server.votesReceived = 1 + c.granted.length
  threads : (rest.map fun p => (p, t)).Subperm c.threads

variable {t p : ℕ} {rest ps : List ℕ}

/-- The thread of the next entry can bring its vote. -/
theorem Polling.step_reply (h : Polling args t (p :: rest) c) :
    c.step (.reply p t ⟨t, true⟩) =
      some (⟨Node.flush { c.node with
          server := c.node.server.handleRequestVoteReply t ⟨t, true⟩ },
          c.threads.erase (p, t), c.granted ++ [p]⟩,
        (c.node.server.handleRequestVoteReply t ⟨t, true⟩).effects.filterMap
          ((c.node.server.handleRequestVoteReply t ⟨t, true⟩).quorum (c.granted ++ [p]))) := by
  have hthread : (p, t) ∈ c.threads := h.threads.subset List.mem_cons_self
  have hcount : c.node.server.countsVote t ⟨t, true⟩ = true :=
    countsVote_iff.mpr ⟨by simp [h.term], h.role, h.term, rfl⟩
  rw [Canvass.step, if_pos hthread, if_pos hcount]
  rfl

theorem Polling.counted (h : Polling args t (p :: rest) c)
    (hlt : 1 + (c.granted.length + 1) < c.node.server.majority)
    (hlen : c.node.server.majority < 2 ^ 64) :
    ∃ c' qs, c.step (.reply p t ⟨t, true⟩) = some (c', qs) ∧ Polling args t rest c' ∧
      c'.granted = c.granted ++ [p] := by
  have hvotes : c.node.server.countVote.votesReceived = 1 + (c.granted.length + 1) := by
    show (c.node.server.votesReceived + 1) % 2 ^ 64 = _
    rw [h.votes, Nat.mod_eq_of_lt (by omega), Nat.add_assoc]
  have hs : c.node.server.handleRequestVoteReply t ⟨t, true⟩ = c.node.server.countVote := by
    rw [handleRequestVoteReply_grant h.role h.term, if_neg (by omega)]
  refine ⟨_, _, h.step_reply, ?_, rfl⟩
  rw [hs]
  refine ⟨h.nodeId, h.peers, h.role, h.term, ?_, ?_⟩
  · show c.node.server.countVote.votesReceived = _
    rw [hvotes, List.length_append, List.length_singleton]
  · have herase := h.threads.erase (p, t)
    rwa [List.map_cons, List.erase_cons_head] at herase

theorem Polling.won (h : Polling args t (p :: rest) c)
    (heq : 1 + (c.granted.length + 1) = c.node.server.majority)
    (hlen : c.node.server.majority < 2 ^ 64) :
    ∃ c' qs, c.step (.reply p t ⟨t, true⟩) = some (c', qs) ∧
      .elected (insert args.nodeId (c.granted ++ [p]).toFinset) ∈ qs := by
  have hvotes : c.node.server.countVote.votesReceived = 1 + (c.granted.length + 1) := by
    show (c.node.server.votesReceived + 1) % 2 ^ 64 = _
    rw [h.votes, Nat.mod_eq_of_lt (by omega), Nat.add_assoc]
  have hs : c.node.server.handleRequestVoteReply t ⟨t, true⟩ =
      c.node.server.countVote.becomeLeader := by
    rw [handleRequestVoteReply_grant h.role h.term, if_pos (by omega)]
  obtain ⟨post, heff, -⟩ := c.node.server.countVote.becomeLeader_eq
  have hid := c.node.server.countVote.becomeLeader_counted.nodeId
  refine ⟨_, _, h.step_reply, ?_⟩
  rw [hs, heff]
  refine List.mem_filterMap.mpr ⟨_, List.mem_append_right _ List.mem_cons_self, ?_⟩
  show some (Quorum.elected (insert c.node.server.countVote.becomeLeader.nodeId _)) = _
  rw [hid, ← h.nodeId]
  rfl

theorem run_reply {files : Files} {tr qs : List Quorum} {c' : Canvass} {reply : RequestVoteReply}
    (h : Run (machine args files) TermFits tr c) (hs : c.step (.reply p t reply) = some (c', qs)) :
    Run (machine args files) TermFits (tr ++ qs) c' := by
  have hfits : c.TermFits (.reply p t reply) := fun ha => absurd ha (by simp)
  exact h.next hfits hs

/-- **The votes of as many entries as a majority needs**, one after the other. -/
theorem Polling.elected {files : Files} {tr : List Quorum} (h : Polling args t (p :: rest) c)
    (hrun : Run (machine args files) TermFits tr c)
    (hmaj : 1 + (c.granted ++ p :: rest).length = (args.peers.length + 1) / 2 + 1)
    (hlen : args.peers.length < 2 ^ 64) :
    ∃ tr' c', Run (machine args files) TermFits tr' c' ∧
      .elected (insert args.nodeId (c.granted ++ p :: rest).toFinset) ∈ tr' := by
  induction rest generalizing p c tr with
  | nil =>
    have hmajority : c.node.server.majority = (args.peers.length + 1) / 2 + 1 := by
      rw [Server.majority, h.peers, Startup.peerIds, List.length_map]
    rw [List.length_append, List.length_singleton] at hmaj
    obtain ⟨c', qs, hs, hq⟩ := h.won (by omega) (by omega)
    exact ⟨_, _, run_reply hrun hs, List.mem_append_right _ hq⟩
  | cons p' rest ih =>
    have hmajority : c.node.server.majority = (args.peers.length + 1) / 2 + 1 := by
      rw [Server.majority, h.peers, Startup.peerIds, List.length_map]
    obtain ⟨c', qs, hs, hpolling, hgranted⟩ := h.counted
      (by rw [List.length_append, List.length_cons, List.length_cons] at hmaj; omega) (by omega)
    have hsplit : c'.granted ++ p' :: rest = c.granted ++ p :: p' :: rest := by
      rw [hgranted, List.append_assoc, List.singleton_append]
    rw [← hsplit] at hmaj ⊢
    exact ih hpolling (run_reply hrun hs) hmaj

/-- A follower with peers stands for election. -/
theorem run_stand {files : Files} {tr : List Quorum} (h : Run (machine args files) TermFits tr c)
    (hrole : c.node.server.role = .follower) (hcamp : c.node.campaigning = false)
    (hpeers : c.node.server.peers ≠ [])
    (hterm : c.node.server.metadata.currentTerm + 1 < 2 ^ 64) :
    ∃ tr', Run (machine args files) TermFits tr' ⟨Node.flush { c.node with
      server := c.node.server.becomeCandidate, campaigning := true }, c.threads, []⟩ := by
  have hpos : 0 < c.node.server.peers.length := List.length_pos_iff.mpr hpeers
  have hmaj : ¬ c.node.server.becomeCandidate.majority ≤ 1 := by
    show ¬ (c.node.server.peers.length + 1) / 2 + 1 ≤ 1
    omega
  have htimeout : c.node.server.electionTimeout =
      some (true, c.node.server.becomeCandidate) := by
    rw [Server.electionTimeout, if_neg (by simp [hrole])]
    exact if_neg hmaj
  have hstand : c.node.handle .electionTimeout = some
      ({ c.node with server := c.node.server.becomeCandidate, campaigning := true }, []) := by
    rw [Node.handle, if_neg (by simp [hcamp]), htimeout]
    rfl
  have hstep : (machine args files).step c (.run .electionTimeout) =
      some (⟨Node.flush { c.node with
        server := c.node.server.becomeCandidate, campaigning := true }, c.threads, []⟩,
        c.node.server.becomeCandidate.effects.filterMap
          (c.node.server.becomeCandidate.quorum [])) := by
    rw [machine_step, step_run (by simp), hstand]
    rfl
  exact ⟨_, h.next (fun _ => hterm) hstep⟩

/-- A candidate asks all entries. -/
theorem run_ask {files : Files} {tr : List Quorum} (h : Run (machine args files) TermFits tr c)
    (hcamp : c.node.campaigning = true) :
    ∃ tr', Run (machine args files) TermFits tr' ⟨Node.flush { c.node with campaigning := false },
      c.threadsAfter .sendRequestVotes, c.granted⟩ := by
  have hask : c.node.handle .sendRequestVotes = some
      ({ c.node with campaigning := false }, [.requestVotes c.node.server.requestVoteArgs]) := by
    rw [Node.handle, if_pos hcamp]
  have hstep : (machine args files).step c (.run .sendRequestVotes) =
      some (⟨Node.flush { c.node with campaigning := false }, c.threadsAfter .sendRequestVotes,
        c.granted⟩, c.node.server.effects.filterMap (c.node.server.quorum c.granted)) := by
    rw [machine_step, step_run (by simp), hask]
    rfl
  exact ⟨_, h.next (fun ha => absurd ha (by simp)) hstep⟩

/-- The candidacy of a node with peers, and its questions. -/
theorem polling_start (hne : args.peers ≠ []) (hids : ps.Subperm args.peerIds) :
    ∃ tr c, Run (machine args Files.none) TermFits tr c ∧ Polling args 1 ps c ∧ c.granted = [] := by
  have hserver := Node.start_server args.nodeId args.peerIds 0 Files.none
  generalize hn : Node.start args.nodeId args.peerIds Files.none 0 = n at hserver
  have hinit : Run (machine args Files.none) TermFits [] ⟨n, [], []⟩ := hn ▸ .start
  have hcamp : n.campaigning = false := by
    rw [← hn]
    rfl
  have hrole : n.server.role = .follower := by
    rw [hserver]
    rfl
  have hpeers : n.server.peers = args.peerIds := by
    rw [hserver]
    rfl
  have hid : n.server.nodeId = args.nodeId := by
    rw [hserver]
    rfl
  have hterm : n.server.metadata.currentTerm = 0 := by
    rw [hserver]
    rfl
  have hsome : n.server.peers ≠ [] := by
    rw [hpeers, Startup.peerIds, Ne, List.map_eq_nil_iff]
    exact hne
  have hfits : n.server.metadata.currentTerm + 1 < 2 ^ 64 := by
    rw [hterm]
    norm_num
  obtain ⟨_, hstood⟩ := run_stand hinit hrole hcamp hsome hfits
  obtain ⟨_, hsent⟩ := run_ask hstood rfl
  refine ⟨_, _, hsent, ⟨hid, hpeers, rfl, ?_, rfl, ?_⟩, rfl⟩
  · show (n.server.metadata.currentTerm + 1) % 2 ^ 64 = 1
    rw [hterm]
    rfl
  · show (ps.map fun p => (p, 1)).Subperm (n.server.peers.map fun p =>
      (p, (n.server.metadata.currentTerm + 1) % 2 ^ 64))
    rw [hpeers, hterm]
    exact hids.map fun _ _ heq => (Prod.mk.inj heq).1

/-- **A set of nodes that backs a decision can win**, alone, the first election. -/
theorem exists_elected {A : Finset ℕ} (hA : args.Backs A) (hne : args.peers ≠ [])
    (hlen : args.peers.length < 2 ^ 64) :
    ∃ tr c, Run (machine args Files.none) TermFits tr c ∧
      ∃ nodes ⊆ A, .elected nodes ∈ tr := by
  have hhalf := hA.half
  rw [List.countP_eq_length_filter] at hhalf
  have hpos : 0 < args.peers.length := List.length_pos_iff.mpr hne
  have hlength : ((args.peerIds.filter (· ∈ A)).take ((args.peers.length + 1) / 2)).length =
      (args.peers.length + 1) / 2 := List.length_take_of_le hhalf
  have hsub : ((args.peerIds.filter (· ∈ A)).take ((args.peers.length + 1) / 2)).Subperm
      args.peerIds := ((List.take_sublist _ _).trans List.filter_sublist).subperm
  have hmem : ∀ p ∈ (args.peerIds.filter (· ∈ A)).take ((args.peers.length + 1) / 2), p ∈ A :=
    fun p hp => of_decide_eq_true (List.mem_filter.mp (List.mem_of_mem_take hp)).2
  rcases hps : (args.peerIds.filter (· ∈ A)).take ((args.peers.length + 1) / 2) with _ | ⟨p, rest⟩
  · rw [hps, List.length_nil] at hlength
    omega
  rw [hps] at hlength hsub hmem
  obtain ⟨tr, c, hrun, hpolling, hgranted⟩ := polling_start hne hsub
  obtain ⟨tr', c', hrun', hq⟩ := hpolling.elected hrun
    (by rw [hgranted, List.nil_append, hlength, Nat.add_comm]) hlen
  rw [hgranted, List.nil_append] at hq
  refine ⟨tr', c', hrun', _, Finset.insert_subset hA.self fun p' hp' => ?_, hq⟩
  exact hmem p' (List.mem_toFinset.mp hp')

end Canvass

open Canvass

/-- **When quorums are majorities of nodes.**  For a server that `main` builds, more than half of
the distinct ids stand behind every election and behind every advance of the commit index, in all
runs whose terms fit, if and only if no half of the ids owns half of the entries. -/
theorem quorum_iff_balanced (flags : List Flag) (args : Startup) (_ : main flags = .ok args)
    (hlen : args.peers.length < 2 ^ 64) :
    (∀ files tr c, Run (machine args files) TermFits tr c →
      ∀ q ∈ tr, args.ids.card < 2 * q.nodes.card) ↔ args.Balanced := by
  rw [Startup.balanced_iff]
  constructor
  · intro h A hA
    by_contra hcard
    have hne : args.peers ≠ [] := by
      intro hnil
      have hids : args.ids = {args.nodeId} := by rw [Startup.ids, Startup.peerIds, hnil]; rfl
      have hpos : 0 < A.card := Finset.card_pos.mpr ⟨_, hA.self⟩
      rw [hids, Finset.card_singleton] at hcard
      omega
    obtain ⟨tr, c, hrun, nodes, hsub, hq⟩ := exists_elected hA hne hlen
    have hlt := h _ tr c hrun _ hq
    have hle := Finset.card_le_card hsub
    exact hcard (hlt.trans_le (Nat.mul_le_mul_left 2 hle))
  · intro h files tr c hrun q hq
    exact h _ ((backs_of_run hrun).2 q hq)

/-- Three nodes, each with one entry in the others' lists. -/
def threeNodes : Startup :=
  ⟨1, 8001, 9001, ascii "./data", [⟨2, ascii "10.0.0.2", 9002⟩, ⟨3, ascii "10.0.0.3", 9003⟩]⟩

theorem quorum_iff_balanced_three : threeNodes.ids.card = 3 ∧
    ∀ files tr c, Run (machine threeNodes files) TermFits tr c →
      ∀ q ∈ tr, threeNodes.ids.card < 2 * q.nodes.card :=
  ⟨by decide, (quorum_iff_balanced
    [.id (ascii "1"), .port (ascii "8001"), .peerPort (ascii "9001"),
      .peers (ascii "2@10.0.0.2:9002,3@10.0.0.3:9003")] threeNodes (by decide +kernel)
    (by decide)).mpr (Startup.balanced_of_nodup (by decide) (by decide))⟩

/-- Four nodes, one of which has two entries. -/
def repeatedPeer : Startup :=
  ⟨1, 8001, 9001, ascii "./data", [⟨2, ascii "10.0.0.2", 9002⟩, ⟨2, ascii "10.0.0.2", 9002⟩,
    ⟨3, ascii "10.0.0.3", 9003⟩, ⟨4, ascii "10.0.0.4", 9004⟩]⟩

/-- **A minority wins**: `main` accepts the list, and nodes 1 and 2 of the four elect a leader. -/
theorem repeatedPeer_minority :
    main [.id (ascii "1"), .port (ascii "8001"), .peerPort (ascii "9001"),
      .peers (ascii "2@10.0.0.2:9002,2@10.0.0.2:9002,3@10.0.0.3:9003,4@10.0.0.4:9004")] =
        .ok repeatedPeer ∧
      ∃ tr c, Run (machine repeatedPeer Files.none) TermFits tr c ∧
        ∃ q ∈ tr, ¬ repeatedPeer.ids.card < 2 * q.nodes.card := by
  have hbacks : repeatedPeer.Backs {1, 2} := ⟨by decide, by decide, by decide⟩
  obtain ⟨tr, c, hrun, nodes, hsub, hq⟩ := exists_elected hbacks (by decide) (by decide)
  refine ⟨by decide +kernel, tr, c, hrun, _, hq, ?_⟩
  have htwo : nodes.card ≤ 2 := Finset.card_le_card hsub
  have hfour : repeatedPeer.ids.card = 4 := by decide
  show ¬ repeatedPeer.ids.card < 2 * nodes.card
  omega

end RaftConsensus
