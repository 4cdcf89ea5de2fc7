import RaftConsensus.Election
import RaftConsensus.Moves

/-!
# At most one leader a term

The source counts votes in a bare number, `votes_received`.  What makes the number mean
something is not in the program: it is that every grant counted was given by another
member.  `Tally` says so of a candidate.  It names the set of voters that the number
counts, and it speaks of the *ballots* of the candidate, which are its requests on their
way to a member and the replies on their way back.  There is at most one ballot for each
member, and none for a member that is counted already.

Ballots are scarce for two reasons.  `sendRequestVoteToAll` runs in a critical section of
its own and reads the term anew, so it may send requests for a term in which its node is
no candidate; but a node can only become a candidate of a term that it has never had
before, and of which it therefore never sent a request.  And it sends once in a candidacy,
because the timer thread does.

* `ElectionInv`: the invariant, over the trace and the cluster.
* `becomeLeader_unique`: no two nodes enter `becomeLeader` in one term.
-/

namespace RaftConsensus

namespace Cluster

variable {conf : Config} {c c' : Cluster} {tr evs : List (ℕ × Node.Event)}

/-- The current term of a member. -/
abbrev term (c : Cluster) (i : ℕ) : ℕ := (c.hosts i).server.metadata.currentTerm

theorem term_update_self (hosts : ℕ → Node) (i : ℕ) (n : Node) (net : List Packet) :
    term ⟨Function.update hosts i n, net⟩ i = n.server.metadata.currentTerm := by
  simp [term]

theorem term_update_of_ne {i j : ℕ} (h : j ≠ i) (c : Cluster) (n : Node) (net : List Packet) :
    term ⟨Function.update c.hosts i n, net⟩ j = c.term j := by
  simp [term, h]

/-- Member `v` voted for `i` in term `t`. -/
def Voted (tr : List (ℕ × Node.Event)) (v t i : ℕ) : Prop := VotedIn v (effects v tr) t i

theorem Voted.mono {v t i : ℕ} (h : Voted tr v t i) (evs : List (ℕ × Node.Event)) :
    Voted (tr ++ evs) v t i := by
  refine VotedIn.mono h ?_
  rw [effects_append]
  exact List.subset_append_left _ _

/-! ## Ballots -/

/-- A ballot of candidate `i` for member `v` in term `t`: the request, or the reply to it. -/
def isBallot (i v t : ℕ) : Packet → Bool
  | .requestVote caller _ callee args => caller = i && callee = v && args.term = t
  | .requestVoteReply caller _ callee electionTerm _ =>
    caller = i && callee = v && electionTerm = t
  | _ => false

/-- The ballots on their way. -/
def ballotCount (net : List Packet) (i v t : ℕ) : ℕ := net.countP (isBallot i v t)

/-- What is true of every message about votes and terms. -/
def Fair (conf : Config) (tr : List (ℕ × Node.Event)) (term : ℕ → ℕ) : Packet → Prop
  | .requestVote caller _ callee args =>
    caller ∈ conf.members ∧ callee ∈ conf.peers caller ∧ args.candidateId = caller ∧
      args.term ≤ term caller
  | .requestVoteReply caller _ callee electionTerm reply =>
    caller ∈ conf.members ∧ callee ∈ conf.peers caller ∧ electionTerm ≤ term caller ∧
      reply.term ≤ term callee ∧ (reply.voteGranted = true → Voted tr callee electionTerm caller)
  | .appendEntries caller _ callee args =>
    caller ∈ conf.members ∧ callee ∈ conf.peers caller ∧ args.term ≤ term caller
  | .appendEntriesReply caller _ callee _ reply =>
    caller ∈ conf.members ∧ callee ∈ conf.peers caller ∧ reply.term ≤ term callee

theorem Fair.mono {term term' : ℕ → ℕ} {p : Packet} (h : Fair conf tr term p)
    (hterm : ∀ i ∈ conf.members, term i ≤ term' i) (evs : List (ℕ × Node.Event)) :
    Fair conf (tr ++ evs) term' p := by
  rcases p with ⟨i, b, j, args⟩ | ⟨i, b, j, t, reply⟩ | ⟨i, b, j, args⟩ | ⟨i, b, j, args, reply⟩
  · obtain ⟨hi, hj, hid, ht⟩ := h
    exact ⟨hi, hj, hid, ht.trans (hterm i hi)⟩
  · obtain ⟨hi, hj, ht, hr, hg⟩ := h
    exact ⟨hi, hj, ht.trans (hterm i hi),
      hr.trans (hterm j ((conf.mem_peers i hi j).mp hj).1), fun hgr => (hg hgr).mono evs⟩
  · obtain ⟨hi, hj, ht⟩ := h
    exact ⟨hi, hj, ht.trans (hterm i hi)⟩
  · obtain ⟨hi, hj, hr⟩ := h
    exact ⟨hi, hj, hr.trans (hterm j ((conf.mem_peers i hi j).mp hj).1)⟩

/-- A candidate has no ballots for a term that it has not reached. -/
theorem ballotCount_eq_zero {term : ℕ → ℕ} {net : List Packet}
    (h : ∀ p ∈ net, Fair conf tr term p) {i v t : ℕ} (ht : term i < t) :
    ballotCount net i v t = 0 := by
  rw [ballotCount, List.countP_eq_zero]
  intro p hp hb
  have hfair := h p hp
  rcases p with ⟨j, b, w, args⟩ | ⟨j, b, w, t', reply⟩ | _ | _
  · simp only [isBallot, Bool.and_eq_true, decide_eq_true_eq] at hb
    obtain ⟨⟨rfl, -⟩, rfl⟩ := hb
    have := hfair.2.2.2
    omega
  · simp only [isBallot, Bool.and_eq_true, decide_eq_true_eq] at hb
    obtain ⟨⟨rfl, -⟩, rfl⟩ := hb
    have := hfair.2.2.1
    omega
  · exact absurd hb (by simp [isBallot])
  · exact absurd hb (by simp [isBallot])

/-! ## The invariant -/

/-- The votes of candidate `i` are those of the members in `S`. -/
structure Tally (conf : Config) (tr : List (ℕ × Node.Event)) (net : List Packet) (i : ℕ)
    (n : Node) (S : Finset ℕ) : Prop where
  subset : S ⊆ conf.members
  self : i ∈ S
  card : S.card = n.server.votesReceived
  voted : ∀ v ∈ S, Voted tr v n.server.metadata.currentTerm i
  count_le : ∀ v, ballotCount net i v n.server.metadata.currentTerm ≤ 1
  counted : ∀ v ∈ S, v ≠ i → ballotCount net i v n.server.metadata.currentTerm = 0
  fresh : n.campaigning = true →
    S = {i} ∧ ∀ v, ballotCount net i v n.server.metadata.currentTerm = 0
  unled : ∀ log, .becomeLeader n.server.metadata.currentTerm log ∉ effects i tr

/-- **The invariant of elections.** -/
structure ElectionInv (conf : Config) (tr : List (ℕ × Node.Event)) (c : Cluster) : Prop where
  settled : ∀ i ∈ conf.members, (c.hosts i).Settled i (conf.peers i)
  votes : ∀ i ∈ conf.members, VoteInv i (effects i tr) (c.hosts i).ballot
  packets : ∀ p ∈ c.network, Fair conf tr c.term p
  tally : ∀ i ∈ conf.members, (c.hosts i).server.role = .candidate →
    ∃ S, Tally conf tr c.network i (c.hosts i) S
  won : ∀ i ∈ conf.members, ∀ t log, .becomeLeader t log ∈ effects i tr →
    ∃ S, conf.Majority S ∧ ∀ v ∈ S, Voted tr v t i
  leads : ∀ i ∈ conf.members, (c.hosts i).server.role = .leader →
    ∃ log, .becomeLeader (c.term i) log ∈ effects i tr

/-- A tally survives what adds no ballot. -/
theorem Tally.mono {net net' : List Packet} {i : ℕ} {n n' : Node} {S : Finset ℕ}
    (h : Tally conf tr net i n S) {evs : List (ℕ × Node.Event)}
    (hterm : n'.server.metadata.currentTerm = n.server.metadata.currentTerm)
    (hvotes : n'.server.votesReceived = n.server.votesReceived)
    (hcamp : n'.campaigning = true → n.campaigning = true)
    (hcount : ∀ v t, ballotCount net' i v t ≤ ballotCount net i v t)
    (hmark : ∀ log, .becomeLeader n'.server.metadata.currentTerm log ∉ effects i evs) :
    Tally conf (tr ++ evs) net' i n' S where
  subset := h.subset
  self := h.self
  card := h.card.trans hvotes.symm
  voted v hv := hterm ▸ (h.voted v hv).mono evs
  count_le v := hterm ▸ (hcount v _).trans (h.count_le v)
  counted v hv hne := by
    have := hcount v n.server.metadata.currentTerm
    have := h.counted v hv hne
    rw [hterm]
    omega
  fresh hc := by
    obtain ⟨hS, hzero⟩ := h.fresh (hcamp hc)
    refine ⟨hS, fun v => ?_⟩
    have := hcount v n.server.metadata.currentTerm
    have := hzero v
    rw [hterm]
    omega
  unled log := by
    rw [effects_append, List.mem_append, not_or]
    exact ⟨hterm ▸ h.unled log, hmark log⟩

/-! ## Inputs are bounded -/

theorem ElectionInv.term_lt (h : ElectionInv conf tr c) {i : ℕ} (hi : i ∈ conf.members) :
    c.term i < 2 ^ 64 := (h.settled i hi).tracked.term_lt

/-- What a member receives is bounded. -/
theorem ElectionInv.bounded (h : ElectionInv conf tr c) {i : ℕ} {g : Trigger} {x : Input}
    {net : List Packet} (hfetch : c.fetch i g = some (x, net))
    (hwrap : g = .thread .electionTimeout → c.term i + 1 < 2 ^ 64) :
    x.Bounded (c.hosts i).server := by
  rcases fetch_eq_some hfetch with ⟨rfl, hloc, -⟩ | ⟨p, rfl, hp, hx, -⟩
  · rcases x with _ | _ | _ | _ | _ | _ | _ | _ | _ | _
    · exact absurd hloc (by simp [Input.isLocal])
    · exact absurd hloc (by simp [Input.isLocal])
    · exact absurd hloc (by simp [Input.isLocal])
    · exact absurd hloc (by simp [Input.isLocal])
    · trivial
    · exact hwrap rfl
    all_goals trivial
  · have hfair := h.packets p hp
    cases hx with
    | requestVote caller b args =>
      obtain ⟨hj, hk, hid, ht⟩ := hfair
      refine ⟨ht.trans_lt (h.term_lt hj), ?_, ?_⟩
      · rw [hid]
        exact conf.ne_zero caller hj
      · rw [hid]
        exact conf.lt caller hj
    | requestVoteReply callee t reply =>
      obtain ⟨hj, hk, -, hr, -⟩ := hfair
      exact hr.trans_lt (h.term_lt ((conf.mem_peers i hj callee).mp hk).1)
    | appendEntries caller b args args' hargs =>
      show args'.term < 2 ^ 64
      rw [receiveAppendEntries_term hargs]
      exact Nat.mod_lt _ (Nat.two_pow_pos 64)
    | appendEntriesReply callee args reply =>
      obtain ⟨hj, hk, hr⟩ := hfair
      exact hr.trans_lt (h.term_lt ((conf.mem_peers i hj callee).mp hk).1)

/-! ## Ballots and what is sent -/

theorem ballotCount_append (net net' : List Packet) (i v t : ℕ) :
    ballotCount (net ++ net') i v t = ballotCount net i v t + ballotCount net' i v t :=
  List.countP_append

theorem ballotCount_erase {net : List Packet} {p : Packet} (hp : p ∈ net) (i v t : ℕ) :
    ballotCount (net.erase p) i v t + (if isBallot i v t p then 1 else 0) =
      ballotCount net i v t := by
  have hperm := (List.perm_cons_erase hp).countP_eq (isBallot i v t)
  rw [ballotCount, ballotCount, hperm, List.countP_cons]

/-- What is left in the network has no more ballots. -/
theorem ballotCount_fetch {i : ℕ} {g : Trigger} {x : Input} {net : List Packet}
    (h : c.fetch i g = some (x, net)) (j v t : ℕ) :
    ballotCount net j v t ≤ ballotCount c.network j v t := by
  rcases fetch_eq_some h with ⟨-, -, rfl⟩ | ⟨p, -, -, -, rfl⟩
  · exact le_rfl
  · exact List.erase_sublist.countP_le

/-- **A section adds no ballot**, but for the requests of `sendRequestVoteToAll`: a reply takes
the place of the request. -/
theorem ballotCount_sends {i : ℕ} {g : Trigger} {x : Input} {net sent : List Packet}
    (hfetch : c.fetch i g = some (x, net)) (hsends : Sends i (c.hosts i) g x sent) {j : ℕ}
    (hj : j ≠ i ∨ x ≠ .sendRequestVotes) (v t : ℕ) :
    ballotCount (net ++ sent) j v t ≤ ballotCount c.network j v t := by
  have hle := ballotCount_fetch hfetch j v t
  rw [ballotCount_append]
  cases hsends with
  | none => simpa [ballotCount] using hle
  | voteReply caller b callee args hg hx =>
    rcases fetch_eq_some hfetch with ⟨rfl, -, -⟩ | ⟨p, rfl, hp, hx', rfl⟩
    · exact absurd hg (by simp)
    · obtain rfl : p = .requestVote caller b callee args := Trigger.packet.inj hg
      have hcallee : callee = i := by
        cases hx'
        rfl
      have herase := ballotCount_erase hp j v t
      have hone : ballotCount [Packet.requestVoteReply caller b i args.term
          ((c.hosts i).server.handleRequestVote args).1] j v t =
          if isBallot j v t (.requestVote caller b callee args) then 1 else 0 := by
        rw [hcallee, ballotCount, List.countP_singleton]
        rfl
      rw [hone]
      exact herase.le
  | appendReply caller b callee args args' r hg hx hr =>
    simpa [ballotCount, isBallot] using hle
  | votes hg hx hcamp =>
    have hne : j ≠ i := hj.resolve_right (not_not.mpr hx)
    have hzero : ballotCount ((c.hosts i).server.peers.map fun k =>
        Packet.requestVote i (c.hosts i).boot k (c.hosts i).server.requestVoteArgs) j v t = 0 := by
      rw [ballotCount, List.countP_eq_zero]
      intro p hp
      obtain ⟨k, -, rfl⟩ := List.mem_map.mp hp
      simp [isBallot, Ne.symm hne]
    rw [hzero]
    exact hle
  | append peer args hx hpeer hargs => simpa [ballotCount, isBallot] using hle

/-- `sendRequestVoteToAll` adds one ballot for each peer at most. -/
theorem ballotCount_votes (h : ElectionInv conf tr c) {i : ℕ} (hi : i ∈ conf.members) (v t : ℕ) :
    ballotCount ((c.hosts i).server.peers.map fun k =>
      Packet.requestVote i (c.hosts i).boot k (c.hosts i).server.requestVoteArgs) i v t ≤ 1 := by
  rw [(h.settled i hi).tracked.peers, ballotCount, List.countP_map]
  calc (conf.peers i).countP _ ≤ (conf.peers i).count v := by
        rw [List.count]
        refine List.countP_mono_left fun k _ hk => ?_
        simp only [Function.comp_apply, isBallot, Bool.and_eq_true, decide_eq_true_eq] at hk
        exact beq_iff_eq.mpr hk.1.2
    _ ≤ 1 := List.nodup_iff_count_le_one.mp (conf.nodup i hi) v

/-- **What a section sends is fair.** -/
theorem fair_sends (h : ElectionInv conf tr c) {i : ℕ} (hi : i ∈ conf.members) {g : Trigger}
    {x : Input} {net sent : List Packet} {m : Node} {os : List Output}
    (hfetch : c.fetch i g = some (x, net)) (hm : (c.hosts i).handle x = some (m, os))
    (hsends : Sends i (c.hosts i) g x sent) {term : ℕ → ℕ}
    (hterm : ∀ j ∈ conf.members, c.term j ≤ term j)
    (hself : term i = m.server.metadata.currentTerm) {evs : List (ℕ × Node.Event)}
    (hevs : ∀ e ∈ m.server.effects, (i, .effect e) ∈ evs) :
    ∀ p ∈ sent, Fair conf (tr ++ evs) term p := by
  have hpeers := (h.settled i hi).tracked.peers
  have hid := (h.settled i hi).tracked.nodeId
  intro p hp
  cases hsends with
  | none => exact absurd hp (by simp)
  | voteReply caller b callee args hg hx =>
    rw [List.mem_singleton.mp hp]
    rcases fetch_eq_some hfetch with ⟨rfl, -, -⟩ | ⟨q, rfl, hq, hx', -⟩
    · exact absurd hg (by simp)
    obtain rfl : q = .requestVote caller b callee args := Trigger.packet.inj hg
    obtain ⟨hcaller, hmem, hcand, ht⟩ := h.packets _ hq
    cases hx'
    obtain ⟨rfl, -⟩ := Prod.mk.inj (Option.some.inj hm)
    refine ⟨hcaller, hmem, ht.trans (hterm _ hcaller), ?_, fun hgr => ?_⟩
    · rw [hself, Server.handleRequestVote_term]
    · left
      rw [effects_append]
      refine List.mem_append_right _ (mem_effects.mpr (hevs _ ?_))
      have := Server.handleRequestVote_granted hgr
      rwa [hcand] at this
  | appendReply caller b callee args args' r hg hx hr =>
    rw [List.mem_singleton.mp hp]
    rcases fetch_eq_some hfetch with ⟨rfl, -, -⟩ | ⟨q, rfl, hq, hx', -⟩
    · exact absurd hg (by simp)
    obtain rfl : q = .appendEntries caller b callee args := Trigger.packet.inj hg
    obtain ⟨hcaller, hmem, -⟩ := h.packets _ hq
    subst hx
    cases hx'
    obtain ⟨r', hr', heq⟩ := Option.map_eq_some_iff.mp hm
    obtain rfl : r' = r := Option.some.inj (hr'.symm.trans hr)
    refine ⟨hcaller, hmem, ?_⟩
    rw [hself, ← (Prod.mk.inj heq).1, Server.handleAppendEntries_term hr]
  | votes hg hx hcamp =>
    obtain ⟨k, hk, rfl⟩ := List.mem_map.mp hp
    exact ⟨hi, hpeers ▸ hk, hid, hterm i hi⟩
  | append peer args hx hpeer hargs =>
    rw [List.mem_singleton.mp hp]
    refine ⟨hi, hpeers ▸ hpeer, ?_⟩
    rw [Server.appendEntriesArgs] at hargs
    split at hargs
    · exact absurd hargs (by simp)
    · rw [← Option.some.inj hargs]
      exact hterm i hi

/-! ## A vote is counted -/

/-- **The vote that a candidate counts is a new one.** -/
theorem ElectionInv.new_vote (h : ElectionInv conf tr c) {i : ℕ} (hi : i ∈ conf.members)
    {g : Trigger} {reply : RequestVoteReply} {net : List Packet}
    (hfetch : c.fetch i g = some (.requestVoteReply (c.term i) reply, net))
    (hgranted : reply.voteGranted = true) (hrole : (c.hosts i).server.role = .candidate) :
    ∃ S v, Tally conf tr c.network i (c.hosts i) S ∧ v ∈ conf.members ∧ v ∉ S ∧
      Voted tr v (c.term i) i ∧ (c.hosts i).campaigning = false ∧
      ballotCount net i v (c.term i) = 0 := by
  obtain ⟨S, hS⟩ := h.tally i hi hrole
  rcases fetch_eq_some hfetch with ⟨-, hloc, -⟩ | ⟨p, rfl, hp, hx, rfl⟩
  · exact absurd hloc (by simp [Input.isLocal])
  cases hx with
  | requestVoteReply v t reply =>
    obtain ⟨-, hv, -, -, hvoted⟩ := h.packets _ hp
    obtain ⟨hvmem, hvne⟩ := (conf.mem_peers i hi v).mp hv
    have herase := ballotCount_erase hp i v (c.term i)
    rw [if_pos (by simp [isBallot])] at herase
    have hone : ballotCount c.network i v (c.term i) ≤ 1 := hS.count_le v
    refine ⟨S, v, hS, hvmem, fun hvS => ?_, hvoted hgranted, ?_, by omega⟩
    · have : ballotCount c.network i v (c.term i) = 0 := hS.counted v hvS hvne
      omega
    · by_contra hcamp
      have : ballotCount c.network i v (c.term i) = 0 := (hS.fresh (by simpa using hcamp)).2 v
      omega

/-- With one vote more than its tally, the voters of a candidate are these many. -/
theorem Tally.insert_card {net : List Packet} {i v : ℕ} {n : Node} {S : Finset ℕ}
    (h : Tally conf tr net i n S) (hv : v ∈ conf.members) (hvS : v ∉ S) :
    insert v S ⊆ conf.members ∧
      (insert v S).card = (n.server.votesReceived + 1) % 2 ^ 64 := by
  have hsub : insert v S ⊆ conf.members := Finset.insert_subset hv h.subset
  have hle := Finset.card_le_card hsub
  have hlt := conf.card_lt
  rw [Finset.card_insert_of_notMem hvS, h.card] at hle
  refine ⟨hsub, ?_⟩
  rw [Finset.card_insert_of_notMem hvS, h.card, Nat.mod_eq_of_lt (by omega)]

theorem ElectionInv.majority_eq (h : ElectionInv conf tr c) {i : ℕ} (hi : i ∈ conf.members) :
    (c.hosts i).server.majority = conf.members.card / 2 + 1 := by
  rw [Server.majority, (h.settled i hi).tracked.peers, conf.length_peers hi]

/-- What stands before an element of a list is in every prefix that reaches the element. -/
theorem subset_take_of_mem {α : Type*} {pre post : List α} {a b : α} {k : ℕ}
    (h : b ∈ (pre ++ a :: post).take k) (hb : b ∉ pre) : pre ⊆ (pre ++ a :: post).take k := by
  rcases le_or_gt k pre.length with hle | hlt
  · rw [List.take_append_of_le_length hle] at h
    exact absurd (List.mem_of_mem_take h) hb
  · rw [List.take_append, List.take_of_length_le hlt.le]
    exact List.subset_append_left _ _

/-- **A section that enters `becomeLeader` has a majority behind it**, already when it gets
there. -/
theorem ElectionInv.won_turn (h : ElectionInv conf tr c) {i : ℕ} (hi : i ∈ conf.members)
    {g : Trigger} {x : Input} {net : List Packet} {m : Node} {os : List Output}
    (hfetch : c.fetch i g = some (x, net)) (hm : (c.hosts i).handle x = some (m, os)) {k t : ℕ}
    {log : List LogEntry} (hmark : .becomeLeader t log ∈ m.server.effects.take k) :
    ∃ S, conf.Majority S ∧ ∀ v ∈ S, Voted tr v t i ∨
      v = i ∧ .candidate t ∈ m.server.effects.take k := by
  have hclean := (h.settled i hi).clean
  have hmem := List.mem_of_mem_take hmark
  cases Node.handle_turn hm with
  | quiet hq hcamp =>
    have := hq.mark hmem
    rw [hclean] at this
    exact absurd this (by simp)
  | candidacy hx hrole hterm hvotes hcand hq =>
    have := hq hmem
    rw [hclean] at this
    exact absurd this (by simp)
  | counted hx hgranted hrole hterm heq =>
    have : m.server.effects = [] := by
      rw [show m = _ from heq]
      exact hclean
    rw [this] at hmem
    exact absurd hmem (by simp)
  | elected pre post heff hpre hpost hrole hwin =>
    rw [hclean, List.nil_append] at heff
    dsimp only at heff hwin
    have ht : t = m.server.metadata.currentTerm := by
      rw [heff] at hmem
      rcases List.mem_append.mp hmem with hmem | hmem
      · exact absurd hmem (hpre t log)
      · rcases List.mem_cons.mp hmem with heq | hmem
        · exact (Effect.becomeLeader.inj heq).1
        · exact absurd hmem (hpost t log)
    rcases hwin with ⟨hone, hcand, -, -⟩ | ⟨reply, rfl, hgranted, hrole', hterm, hmaj⟩
    · refine ⟨{i}, ⟨Finset.singleton_subset_iff.mpr hi, ?_⟩, fun v hv => Or.inr ?_⟩
      · rw [Finset.card_singleton, ← h.majority_eq hi]
        exact hone
      · refine ⟨Finset.mem_singleton.mp hv, ?_⟩
        rw [heff] at hmark ⊢
        rw [ht]
        exact subset_take_of_mem hmark (hpre t log) hcand
    · obtain ⟨S, v, hS, hv, hvS, hvoted, -, -⟩ := h.new_vote hi hfetch hgranted hrole'
      obtain ⟨hsub, hcard⟩ := hS.insert_card hv hvS
      rw [h.majority_eq hi] at hmaj
      refine ⟨insert v S, ⟨hsub, by omega⟩, fun w hw => Or.inl ?_⟩
      rw [ht, hterm]
      rcases Finset.mem_insert.mp hw with rfl | hw
      · exact hvoted
      · exact hS.voted w hw

/-! ## The steps keep the invariant -/

/-- A step of one member, told of the member alone. -/
theorem ElectionInv.of_node (h : ElectionInv conf tr c) {i : ℕ} (hi : i ∈ conf.members)
    {a : Node.Action} (ha : (c.hosts i).Intact a) {n' : Node} {es : List Node.Event}
    (hs : (c.hosts i).step a = some (n', es)) {net' : List Packet}
    (hold : ∀ p ∈ net', p ∈ c.network ∨
      Fair conf (tr ++ tag i es) (term ⟨Function.update c.hosts i n', net'⟩) p)
    (hcount : ∀ j, j ≠ i → ∀ v t, ballotCount net' j v t ≤ ballotCount c.network j v t)
    (htally : n'.server.role = .candidate → ∃ S, Tally conf (tr ++ tag i es) net' i n' S)
    (hwon : ∀ t log, .becomeLeader t log ∈ Node.effects es →
      ∃ S, conf.Majority S ∧ ∀ v ∈ S, Voted (tr ++ tag i es) v t i)
    (hleads : n'.server.role = .leader →
      ∃ log, .becomeLeader n'.server.metadata.currentTerm log ∈ effects i (tr ++ tag i es)) :
    ElectionInv conf (tr ++ tag i es) ⟨Function.update c.hosts i n', net'⟩ := by
  obtain ⟨hset, hmono, hvotes⟩ := Node.step_votes (conf.ne_zero i hi) (conf.lt i hi)
    (h.settled i hi) ha hs (h.votes i hi)
  have hother : ∀ j, j ≠ i → effects j (tr ++ tag i es) = effects j tr := by
    intro j hj
    rw [effects_append, effects_tag_of_ne (Ne.symm hj), List.append_nil]
  have hterm : ∀ j ∈ conf.members,
      c.term j ≤ term ⟨Function.update c.hosts i n', net'⟩ j := by
    intro j _
    by_cases hj : j = i
    · subst hj
      rw [term_update_self]
      exact hmono
    · rw [term_update_of_ne hj]
  exact
    { settled := forall_mem_update hset fun j hj _ => h.settled j hj
      votes := by
        refine forall_mem_update
          (Q := fun j n => VoteInv j (effects j (tr ++ tag i es)) n.ballot) ?_ fun j hj hji => ?_
        · rw [effects_append, effects_tag_self]
          exact hvotes
        · rw [hother j hji]
          exact h.votes j hj
      packets := by
        intro p hp
        rcases hold p hp with hp | hp
        · exact (h.packets p hp).mono hterm _
        · exact hp
      tally := by
        refine forall_mem_update (Q := fun j n => n.server.role = .candidate →
          ∃ S, Tally conf (tr ++ tag i es) net' j n S) htally fun j hj hji hrole => ?_
        obtain ⟨S, hS⟩ := h.tally j hj hrole
        refine ⟨S, hS.mono rfl rfl id (hcount j hji) fun log => ?_⟩
        rw [effects_tag_of_ne (Ne.symm hji)]
        simp
      won := by
        intro j hj t log hmark
        rw [effects_append, List.mem_append] at hmark
        rcases hmark with hmark | hmark
        · obtain ⟨S, hS, hv⟩ := h.won j hj t log hmark
          exact ⟨S, hS, fun v hvS => (hv v hvS).mono _⟩
        · by_cases hji : j = i
          · subst hji
            rw [effects_tag_self] at hmark
            exact hwon t log hmark
          · rw [effects_tag_of_ne (Ne.symm hji)] at hmark
            exact absurd hmark (by simp)
      leads := by
        refine forall_mem_update (Q := fun j n => n.server.role = .leader → ∃ log,
            .becomeLeader n.server.metadata.currentTerm log ∈ effects j (tr ++ tag i es))
          hleads fun j hj hji hrole => ?_
        rw [hother j hji]
        exact h.leads j hj hrole }

section Turns

variable (h : ElectionInv conf tr c) {i : ℕ} (hi : i ∈ conf.members) {g : Trigger} {x : Input}
  {net sent : List Packet} {m : Node} {os : List Output}
  (hfetch : c.fetch i g = some (x, net)) (hm : (c.hosts i).handle x = some (m, os))
  (hsends : Sends i (c.hosts i) g x sent) {evs : List (ℕ × Node.Event)}
  (hevs : effects i evs = m.server.effects)

include h hi hevs

/-- No section starts with a mark of a leader. -/
theorem ElectionInv.not_becomeLeader {t : ℕ} {log : List LogEntry}
    (hq : .becomeLeader t log ∈ m.server.effects →
      .becomeLeader t log ∈ (c.hosts i).server.effects) : .becomeLeader t log ∉ effects i evs := by
  intro hmem
  have := hq (hevs ▸ hmem)
  rw [(h.settled i hi).clean] at this
  exact absurd this (by simp)

include hfetch hsends

/-- The campaign goes out: the first ballots of this candidacy. -/
theorem ElectionInv.tally_asked {S : Finset ℕ} (hx : x = .sendRequestVotes)
    (hm : (c.hosts i).handle x = some (m, os)) (hq : (c.hosts i).server.Quiet m.server)
    (hcamp : m.campaigning = true → (c.hosts i).campaigning = true)
    (hterm : m.server.metadata.currentTerm = (c.hosts i).server.metadata.currentTerm)
    (hvotes : m.server.votesReceived = (c.hosts i).server.votesReceived)
    (hS : Tally conf tr c.network i (c.hosts i) S) : Tally conf (tr ++ evs) (net ++ sent) i m S := by
  subst hx
  cases hsends with
  | none =>
    refine hS.mono hterm hvotes hcamp (fun v t => ?_) fun log =>
      h.not_becomeLeader hi hevs hq.mark
    rw [List.append_nil]
    exact ballotCount_fetch hfetch i v t
  | voteReply _ _ _ _ _ hx => exact absurd hx (by simp)
  | appendReply _ _ _ _ _ _ _ hx _ => exact absurd hx (by simp)
  | append _ _ hx _ _ => exact absurd hx (by simp)
  | votes hg hx hcamp' =>
    obtain ⟨hSi, hzero⟩ := hS.fresh hcamp'
    have hm' : m.campaigning = false := by
      cases Node.handle_section hm
      rfl
    refine ⟨hS.subset, hS.self, hS.card.trans hvotes.symm,
      fun v hv => hterm ▸ (hS.voted v hv).mono evs, fun v => ?_, fun v hv hne => ?_,
      fun hc => absurd (hm'.symm.trans hc) (by simp), fun log => ?_⟩
    · have h1 := ballotCount_fetch hfetch i v (c.term i)
      have h2 := ballotCount_votes h hi v (c.term i)
      have h3 : ballotCount c.network i v (c.term i) = 0 := hzero v
      have hterm' : m.server.metadata.currentTerm = c.term i := hterm
      rw [hterm', ballotCount_append]
      omega
    · rw [hSi] at hv
      exact absurd (Finset.mem_singleton.mp hv) hne
    · rw [effects_append, List.mem_append, not_or]
      exact ⟨hterm ▸ hS.unled log, h.not_becomeLeader hi hevs hq.mark⟩

/-- A candidacy begins, in a term that the node has never had before. -/
theorem ElectionInv.tally_stood (hx : x = .electionTimeout)
    (hlt : c.term i < m.server.metadata.currentTerm) (hvotes : m.server.votesReceived = 1)
    (hcand : .candidate m.server.metadata.currentTerm ∈ m.server.effects)
    (hq : ∀ {t log}, .becomeLeader t log ∈ m.server.effects →
      .becomeLeader t log ∈ (c.hosts i).server.effects) :
    Tally conf (tr ++ evs) (net ++ sent) i m {i} := by
  subst hx
  have hcount : ∀ v, ballotCount (net ++ sent) i v m.server.metadata.currentTerm = 0 := by
    intro v
    have h1 := ballotCount_sends hfetch hsends (j := i) (Or.inr (by simp)) v
      m.server.metadata.currentTerm
    have h2 := ballotCount_eq_zero h.packets hlt (v := v)
    omega
  refine ⟨Finset.singleton_subset_iff.mpr hi, Finset.mem_singleton_self i, ?_, ?_, ?_,
    fun v _ _ => hcount v, fun _ => ⟨rfl, hcount⟩, fun log => ?_⟩
  · rw [hvotes, Finset.card_singleton]
  · intro v hv
    rw [Finset.mem_singleton.mp hv]
    refine Or.inr ⟨rfl, ?_⟩
    rw [effects_append, List.mem_append]
    exact Or.inr (hevs ▸ hcand)
  · intro v
    rw [hcount v]
    exact Nat.zero_le 1
  · rw [effects_append, List.mem_append, not_or]
    refine ⟨fun hold => ?_, h.not_becomeLeader hi hevs hq⟩
    exact absurd ((h.votes i hi).led_le hold) (not_le.mpr hlt)

/-- A candidate counts a vote. -/
theorem ElectionInv.tally_counted {reply : RequestVoteReply}
    (hx : x = .requestVoteReply (c.term i) reply) (hgranted : reply.voteGranted = true)
    (hrole : (c.hosts i).server.role = .candidate)
    (heq : m = { c.hosts i with server := { (c.hosts i).server with
      votesReceived := ((c.hosts i).server.votesReceived + 1) % 2 ^ 64 } }) :
    ∃ S, Tally conf (tr ++ evs) (net ++ sent) i m S := by
  subst hx heq
  obtain ⟨S, v, hS, hv, hvS, hvoted, hcamp, hzero⟩ := h.new_vote hi hfetch hgranted hrole
  obtain ⟨hsub, hcard⟩ := hS.insert_card hv hvS
  have hle := ballotCount_sends hfetch hsends (j := i) (Or.inr (by simp))
  have hsent : sent = [] := by
    cases hsends with
    | none => rfl
    | voteReply _ _ _ _ _ hx => exact absurd hx (by simp)
    | appendReply _ _ _ _ _ _ _ hx _ => exact absurd hx (by simp)
    | votes _ hx _ => exact absurd hx (by simp)
    | append _ _ hx _ _ => exact absurd hx (by simp)
  refine ⟨insert v S, hsub, Finset.mem_insert_of_mem hS.self, hcard, ?_,
    fun w => (hle w _).trans (hS.count_le w), ?_,
    fun hc => absurd (hcamp.symm.trans hc) (by simp), fun log => ?_⟩
  · intro w hw
    rcases Finset.mem_insert.mp hw with rfl | hw
    · exact hvoted.mono evs
    · exact (hS.voted w hw).mono evs
  · intro w hw hne
    rcases Finset.mem_insert.mp hw with rfl | hw
    · rw [hsent, List.append_nil]
      exact hzero
    · have h1 := hle w (c.term i)
      have h2 : ballotCount c.network i w (c.term i) = 0 := hS.counted w hw hne
      exact Nat.le_zero.mp (h2 ▸ h1)
  · rw [effects_append, List.mem_append, not_or]
    exact ⟨hS.unled log, h.not_becomeLeader hi hevs id⟩

include hm

/-- The tally of a member after a section of its own. -/
theorem ElectionInv.tally_turn (hwrap : g = .thread .electionTimeout → c.term i + 1 < 2 ^ 64)
    (hrole : m.server.role = .candidate) :
    ∃ S, Tally conf (tr ++ evs) (net ++ sent) i m S := by
  cases Node.handle_turn hm with
  | quiet hq hcamp =>
    obtain ⟨hrole', hterm, hvotes⟩ := hq.candidate hrole
    obtain ⟨S, hS⟩ := h.tally i hi hrole'
    by_cases hx : x = .sendRequestVotes
    · exact ⟨S, h.tally_asked hi hfetch hsends hevs hx hm hq hcamp hterm hvotes hS⟩
    · exact ⟨S, hS.mono hterm hvotes hcamp (ballotCount_sends hfetch hsends (Or.inr hx) ·)
        fun log => h.not_becomeLeader hi hevs hq.mark⟩
  | candidacy hx hrole' hterm hvotes hcand hq =>
    have hthread : g = .thread .electionTimeout := fetch_of_isLocal (hx ▸ hfetch) rfl
    have hlt : c.term i < m.server.metadata.currentTerm := by
      have := hwrap hthread
      rw [hterm, Nat.mod_eq_of_lt this]
      exact Nat.lt_succ_self _
    exact ⟨{i}, h.tally_stood hi hfetch hsends hevs hx hlt hvotes hcand hq⟩
  | counted hx hgranted hrole' hterm heq =>
    subst hterm
    exact h.tally_counted hi hfetch hsends hevs hx hgranted hrole' heq
  | elected pre post heff hpre hpost hrole' hwin =>
    exact absurd (hrole.symm.trans hrole') (by simp)

end Turns

/-- The voters behind a leader, in the trace with this section. -/
theorem ElectionInv.won_voted (h : ElectionInv conf tr c) {i : ℕ} (hi : i ∈ conf.members)
    {g : Trigger} {x : Input} {net : List Packet} {m : Node} {os : List Output}
    (hfetch : c.fetch i g = some (x, net)) (hm : (c.hosts i).handle x = some (m, os)) {k t : ℕ}
    {log : List LogEntry} (hmark : .becomeLeader t log ∈ m.server.effects.take k)
    {evs : List (ℕ × Node.Event)} (hevs : m.server.effects.take k ⊆ effects i evs) :
    ∃ S, conf.Majority S ∧ ∀ v ∈ S, Voted (tr ++ evs) v t i := by
  obtain ⟨S, hS, hv⟩ := h.won_turn hi hfetch hm hmark
  refine ⟨S, hS, fun v hvS => ?_⟩
  rcases hv v hvS with hv | ⟨rfl, hcand⟩
  · exact hv.mono _
  · refine Or.inr ⟨rfl, ?_⟩
    rw [effects_append]
    exact List.mem_append_right _ (hevs hcand)

/-- A leader after a section has its mark in the trace. -/
theorem ElectionInv.leads_turn (h : ElectionInv conf tr c) {i : ℕ} (hi : i ∈ conf.members)
    {x : Input} {m : Node} {os : List Output} (hm : (c.hosts i).handle x = some (m, os))
    {evs : List (ℕ × Node.Event)} (hevs : effects i evs = m.server.effects)
    (hrole : m.server.role = .leader) :
    ∃ log, .becomeLeader m.server.metadata.currentTerm log ∈ effects i (tr ++ evs) := by
  cases Node.handle_turn hm with
  | quiet hq hcamp =>
    obtain ⟨hrole', hterm⟩ := hq.leader hrole
    obtain ⟨log, hlog⟩ := h.leads i hi hrole'
    refine ⟨log, ?_⟩
    rw [effects_append, hterm]
    exact List.mem_append_left _ hlog
  | candidacy hx hrole' hterm hvotes hcand hq =>
    exact absurd (hrole'.symm.trans hrole) (by simp)
  | counted hx hgranted hrole' hterm heq =>
    obtain rfl : m = _ := heq
    exact absurd (hrole'.symm.trans hrole) (by simp)
  | elected pre post heff hpre hpost hrole' hwin =>
    refine ⟨(c.hosts i).server.logEntries, ?_⟩
    rw [effects_append, hevs, heff]
    exact List.mem_append_right _
      (List.mem_append_right _ (List.mem_append_right _ List.mem_cons_self))

/-- **Every step keeps the invariant of elections.** -/
theorem ElectionInv.step (h : ElectionInv conf tr c) {a : Action} (ha : Intact c a)
    (hs : step conf c a = some (c', evs)) : ElectionInv conf (tr ++ evs) c' := by
  cases step_moves hs with
  | run i g x net m os hi hfetch hm =>
    have hclean := (h.settled i hi).clean
    have hsends := handle_sends hfetch hm
    have hintact : (c.hosts i).Intact (.run x) := h.bounded hfetch ha
    have hstep := Node.step_run hm
    have heffects := Node.effects_section m.server.effects os
    have hevs : effects i (tag i (m.server.effects.map .effect ++ os.map .output)) =
        m.server.effects := by rw [effects_tag_self, heffects]
    have hwon : ∀ t log, .becomeLeader t log ∈ m.server.effects → ∃ S, conf.Majority S ∧
        ∀ v ∈ S, Voted (tr ++ tag i (m.server.effects.map .effect ++ os.map .output)) v t i := by
      intro t log hmark
      rw [← List.take_length (l := m.server.effects)] at hmark
      refine h.won_voted hi hfetch hm hmark ?_
      rw [List.take_length, hevs]
      exact List.Subset.refl _
    refine h.of_node hi hintact hstep (fun p hp => ?_)
      (fun j hj v t => ballotCount_sends hfetch hsends (Or.inl hj) v t) (fun hrole => ?_)
      (fun t log hmark => hwon t log (heffects ▸ hmark)) fun hrole => ?_
    · rcases List.mem_append.mp hp with hp | hp
      · exact Or.inl (fetch_subset hfetch hp)
      · right
        refine fair_sends h hi hfetch hm hsends (fun j _ => ?_) ?_ (fun e he => ?_) p hp
        · by_cases hj : j = i
          · subst hj
            obtain ⟨-, hmono, -⟩ := Node.step_votes (conf.ne_zero j hi) (conf.lt j hi)
              (h.settled j hi) hintact hstep (h.votes j hi)
            rw [term_update_self]
            exact hmono
          · rw [term_update_of_ne hj]
        · rw [term_update_self]
          rfl
        · rw [← mem_effects, hevs]
          exact he
    · obtain ⟨S, hS⟩ := h.tally_turn hi hfetch hm hsends hevs ha hrole
      exact ⟨S, hS.subset, hS.self, hS.card, hS.voted, hS.count_le, hS.counted, hS.fresh,
        hS.unled⟩
    · exact h.leads_turn hi hm hevs hrole
  | crash i retries hi =>
    refine h.of_node hi (a := .crash retries) ha rfl (fun p hp => Or.inl hp)
      (fun _ _ _ _ => le_rfl) (fun hrole => ?_) (fun t log hmark => ?_) fun hrole => ?_
    · rw [Node.restart_role] at hrole
      exact absurd hrole (by simp)
    · rw [Node.effects_map_effect] at hmark
      exact absurd (Node.isBoot_restart hmark) id
    · rw [Node.restart_role] at hrole
      exact absurd hrole (by simp)
  | crashIn i g p retries x net m os hi hfetch hm =>
    have hstep := Node.step_crashIn hm p retries
    have hintact : (c.hosts i).Intact (.crashIn x p retries) :=
      ⟨h.bounded hfetch ha.1, fun r hr => ha.2 x net r hfetch hr⟩
    refine h.of_node hi hintact hstep (fun q hq => Or.inl (fetch_subset hfetch hq))
      (fun j _ v t => ballotCount_fetch hfetch j v t) (fun hrole => ?_) (fun t log hmark => ?_)
      fun hrole => ?_
    · rw [Node.restart_role] at hrole
      exact absurd hrole (by simp)
    · rw [Node.effects_map_effect, List.mem_append] at hmark
      rcases hmark with hmark | hmark
      · refine h.won_voted hi hfetch hm hmark ?_
        rw [effects_tag_self, Node.effects_map_effect]
        exact List.subset_append_left _ _
      · exact absurd (Node.isBoot_restart hmark) id
    · rw [Node.restart_role] at hrole
      exact absurd hrole (by simp)
  | lose p hp =>
    rw [List.append_nil]
    exact
      { h with
        packets := fun q hq => h.packets q (List.mem_of_mem_erase hq)
        tally := by
          intro i hi hrole
          obtain ⟨S, hS⟩ := h.tally i hi hrole
          have hS' : Tally conf (tr ++ []) (c.network.erase p) i (c.hosts i) S :=
            hS.mono rfl rfl id (fun v t => List.erase_sublist.countP_le) (by simp [effects])
          rw [List.append_nil] at hS'
          exact ⟨S, hS'⟩ }

/-- **The invariant of elections holds in every run.** -/
theorem electionInv (h : Run (machine conf) Intact tr c) : ElectionInv conf tr c := by
  refine h.invariant (I := fun tr c => ElectionInv conf tr c) ?_ ?_
  · exact
      { settled := fun i _ => Node.start_settled i (conf.peers i) _ 0
        votes := fun _ _ => VoteInv.nil
        packets := fun p hp => absurd hp (by simp [machine, initial])
        tally := fun i _ hrole => by
          exact absurd ((Node.start_role i (conf.peers i) _ 0).symm.trans hrole) (by simp)
        won := fun i _ t log hmark => absurd hmark (by simp [effects])
        leads := fun i _ hrole => by
          exact absurd ((Node.start_role i (conf.peers i) _ 0).symm.trans hrole) (by simp) }
  · intro tr s a s' es _ hI hP hs
    exact hI.step hP hs

/-- Only members have events. -/
theorem mem_members (h : Run (machine conf) Intact tr c) {i : ℕ} {e : Node.Event}
    (he : (i, e) ∈ tr) : i ∈ conf.members := by
  refine h.invariant (I := fun tr _ => ∀ i e, (i, e) ∈ tr → i ∈ conf.members) (by simp) ?_ i e he
  intro tr s a s' es _ hI _ hs j e hmem
  rcases List.mem_append.mp hmem with hmem | hmem
  · exact hI j e hmem
  · cases step_moves hs with
    | run i g x net m os hi hfetch hm => exact (mem_tag.mp hmem).1 ▸ hi
    | crash i retries hi => exact (mem_tag.mp hmem).1 ▸ hi
    | crashIn i g p retries x net m os hi hfetch hm => exact (mem_tag.mp hmem).1 ▸ hi
    | lose p hp => exact absurd hmem (by simp)

/-- **Election safety.**  At most one member ever enters `becomeLeader` in a term, whatever the
timing of elections and messages and wherever members crash. -/
theorem becomeLeader_unique (h : Run (machine conf) Intact tr c) {i j t : ℕ}
    {log log' : List LogEntry} (hi : (i, .effect (.becomeLeader t log)) ∈ tr)
    (hj : (j, .effect (.becomeLeader t log')) ∈ tr) : i = j := by
  have hinv := electionInv h
  obtain ⟨S, hS, hvS⟩ := hinv.won i (mem_members h hi) t log (mem_effects.mpr hi)
  obtain ⟨T, hT, hvT⟩ := hinv.won j (mem_members h hj) t log' (mem_effects.mpr hj)
  obtain ⟨v, hv, hv'⟩ := conf.majority_inter hS hT
  exact (hinv.votes v (hS.1 hv)).unique (hvS v hv) (hvT v hv')

/-- Two elections, and a crash of the first leader in between: each term has its own leader. -/
theorem becomeLeader_unique_three : ∃ tr c, Run (machine .three) Intact tr c ∧
    (∀ j log, (j, .effect (.becomeLeader 1 log)) ∈ tr → 1 = j) ∧
    ∀ j log, (j, .effect (.becomeLeader 2 log)) ∈ tr → 2 = j := by
  let p : Cluster → Action → Bool
    | c, .run i g => decide (g = .thread .electionTimeout →
        (c.hosts i).server.metadata.currentTerm + 1 < 2 ^ 64)
    | _, .crash _ [] => true
    | _, _ => false
  have hp : ∀ c a, p c a = true → Intact c a := by
    intro c a h
    rcases a with ⟨i, g⟩ | ⟨i, _ | _⟩ | _ | _
    · exact of_decide_eq_true (p := g = .thread .electionTimeout → _) h
    · trivial
    · exact absurd h (by simp [p])
    · exact absurd h (by simp [p])
    · exact absurd h (by simp [p])
  obtain ⟨tr, c, hrun, h⟩ := Run.exists_of_exec hp (M := machine .three)
    (fun _ tr => decide (.becomeLeader 1 [] ∈ effects 1 tr ∧ .becomeLeader 2 [] ∈ effects 2 tr))
    [.run 1 (.thread .electionTimeout), .run 1 (.thread .sendRequestVotes),
      .run 3 (.packet (.requestVote 1 0 3 ⟨1, 1, 0, 0⟩)),
      .run 1 (.packet (.requestVoteReply 1 0 3 1 ⟨1, true⟩)), .crash 1 [],
      .run 2 (.packet (.requestVote 1 0 2 ⟨1, 1, 0, 0⟩)),
      .run 2 (.thread .electionTimeout), .run 2 (.thread .sendRequestVotes),
      .run 3 (.packet (.requestVote 2 0 3 ⟨2, 2, 0, 0⟩)),
      .run 2 (.packet (.requestVoteReply 2 0 3 2 ⟨2, true⟩))]
    (by decide +kernel)
  obtain ⟨h1, h2⟩ := of_decide_eq_true h
  exact ⟨tr, c, hrun, fun _ _ hj => becomeLeader_unique hrun (mem_effects.mp h1) hj,
    fun _ _ hj => becomeLeader_unique hrun (mem_effects.mp h2) hj⟩

end Cluster

end RaftConsensus
