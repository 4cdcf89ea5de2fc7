import RaftConsensus.Candidacy
import RaftConsensus.Clients
import RaftConsensus.Holdings

/-!
# Leaders that are left behind

A leader that is cut off from the others does not learn that they have gone on to a later term.
It stays leader, takes requests, and appends them to its log.  But it cannot commit them: a
node of a later term accepts nothing from it.  What its peers have accepted before may still be
on its way back, so it may still commit entries that it had at the time.

* `Server.Limited`: what a leader knows of the others, and what it has committed, has a bound.
* `Node.handle_limited`: a section keeps the bound, if the replies do.
* `Cluster.left_behind`: a leader whose term a majority has left commits nothing that it gets
  from then on, and gives no result to the clients that come then.
-/

namespace RaftConsensus

open Protocol (Grows)

/-! ## What limits a leader -/

namespace Server

variable {s s' : Server} {V : Finset ℕ} {K : ℕ}

/-- The server has credited no node of `V` with more than `K` entries, and has committed no more
than that. -/
structure Limited (V : Finset ℕ) (K : ℕ) (s : Server) : Prop where
  credited : ∀ p ∈ V, s.matchIndex p ≤ K
  commit : s.metadata.commitIndex ≤ K

/-- No majority is without a node of `V`. -/
def NeedsOneOf (V : Finset ℕ) (s : Server) : Prop :=
  ∀ n, s.majority ≤ s.replicas n → ∃ p ∈ V, n ≤ s.matchIndex p

theorem Limited.congr (h : s.Limited V K) (hmatch : s'.matchIndex = s.matchIndex)
    (hcommit : s'.metadata.commitIndex = s.metadata.commitIndex) : s'.Limited V K :=
  ⟨fun p hp => hmatch ▸ h.credited p hp, hcommit ▸ h.commit⟩

theorem Limited.advanceCommit (h : s.Limited V K) (hV : s.NeedsOneOf V) :
    s.advanceCommit.Limited V K := by
  obtain ⟨es, hc⟩ := s.advanceCommit_commits
  refine ⟨fun p hp => hc.matchIndex ▸ h.credited p hp, ?_⟩
  rcases s.advanceCommit_cases with heq | ⟨n, hrole, hscan, heq⟩
  · rw [heq]
    exact h.commit
  · obtain ⟨-, -, -, hmaj⟩ := commitScan_eq_some hscan
    obtain ⟨p, hp, hle⟩ := hV n hmaj
    rw [heq, commitTo, applyCommitted_commitIndex]
    exact hle.trans (h.credited p hp)

/-- The nodes that the leader counts for an index are, with itself, a majority. -/
theorem exists_counted {conf : Config} {i : ℕ} (hi : i ∈ conf.members)
    (hpeers : s.peers = conf.peers i) {n : ℕ} (hmaj : s.majority ≤ s.replicas n) :
    ∃ F, conf.Majority (insert i F) ∧ ∀ p ∈ F, n ≤ s.matchIndex p := by
  let F : Finset ℕ := ((conf.peers i).filter fun p => decide (n ≤ s.matchIndex p)).toFinset
  have hF : ∀ p, p ∈ F ↔ p ∈ conf.peers i ∧ n ≤ s.matchIndex p := by
    intro p
    simp [F]
  have hiF : i ∉ F := fun hmem => ((conf.mem_peers i hi i).mp ((hF i).mp hmem).1).2 rfl
  have hcard : F.card = (conf.peers i).countP fun p => decide (n ≤ s.matchIndex p) := by
    rw [List.toFinset_card_of_nodup ((conf.nodup i hi).filter _), List.countP_eq_length_filter]
  refine ⟨F, ⟨Finset.insert_subset hi fun p hp => ?_, ?_⟩, fun p hp => ((hF p).mp hp).2⟩
  · exact ((conf.mem_peers i hi p).mp ((hF p).mp hp).1).1
  · rw [Finset.card_insert_of_notMem hiF, hcard]
    rw [majority, replicas, hpeers, conf.length_peers hi] at hmaj
    omega

/-- A leader needs a node of every majority that it is not in. -/
theorem needsOneOf {conf : Config} {i : ℕ} (hi : i ∈ conf.members)
    (hpeers : s.peers = conf.peers i) (hV : conf.Majority V) (hiV : i ∉ V) : s.NeedsOneOf V := by
  intro n hmaj
  obtain ⟨F, hF, hmatch⟩ := exists_counted hi hpeers hmaj
  obtain ⟨p, hp, hpV⟩ := conf.majority_inter hF hV
  rcases Finset.mem_insert.mp hp with rfl | hp
  · exact absurd hpV hiV
  · exact ⟨p, hpV, hmatch p hp⟩

end Server

/-- **A leader that stays leader keeps its limit**, if the replies that it gets do. -/
theorem Node.handle_limited {n m : Node} {x : Input} {os : List Output} {V : Finset ℕ} {K : ℕ}
    (h : n.handle x = some (m, os)) (hlead : n.server.role = .leader)
    (hlead' : m.server.role = .leader) (hlim : n.server.Limited V K)
    (hV : ∀ s : Server, s.peers = n.server.peers → s.NeedsOneOf V)
    (hreply : ∀ peer args reply, x = .appendEntriesReply peer args reply → peer ∈ V →
      args.term = n.server.metadata.currentTerm → reply.success = true →
        args.prevLogIndex + args.entries.length ≤ K) :
    m.server.Limited V K := by
  by_cases hx : x.deposes n.server = true
  · exact absurd ((handle_deposed h hx).1.symm.trans hlead') (by simp)
  have proposed : ∀ {request w s}, n.server.propose request = some (w, s) → s.Limited V K := by
    intro request w s hp
    obtain ⟨-, -, rfl⟩ := Server.propose_eq hp
    exact (hlim.congr rfl rfl : (n.server.appendEntry w.entry).Limited V K).advanceCommit (hV _ rfl)
  cases handle_section h with
  | requestVote args =>
    have hmeet : n.server.meetTerm args.term = n.server :=
      if_neg (by simpa [Input.deposes] using hx)
    generalize hr : n.server.handleRequestVote args = r
    cases Server.handleRequestVote_way hr with
    | old => exact hlim
    | granted | denied =>
      rw [hmeet]
      exact hlim.congr rfl rfl
  | appendEntries args r hr =>
    cases Server.handleAppendEntries_way hr with
    | old => exact hlim
    | mismatch hterm | stored hterm => exact absurd (not_lt.mp hterm) (by
        simpa [Input.deposes] using hx)
  | requestVoteReply t reply =>
    generalize hs' : n.server.handleRequestVoteReply t reply = s'
    cases Server.handleRequestVoteReply_way hs' with
    | stepsDown hterm => exact absurd hterm (by simpa [Input.deposes] using hx)
    | ignored => exact hlim
    | won hterm hrole | counted hterm hrole => exact absurd (hrole.symm.trans hlead) (by simp)
  | appendEntriesReply peer args reply =>
    generalize hs' : n.server.handleAppendEntriesReply peer args reply = s'
    cases Server.handleAppendEntriesReply_way hs' with
    | stepsDown hterm => exact absurd hterm (by simpa [Input.deposes] using hx)
    | ignored => exact hlim.congr rfl rfl
    | backed => exact hlim.congr rfl rfl
    | credited hterm hrole hsame hsuccess =>
      have hup : (n.server.reached peer).Limited V K := hlim.congr rfl rfl
      rw [Server.creditPeer_eq]
      refine Server.Limited.advanceCommit ⟨fun p hp => ?_, hup.commit⟩ (hV _ rfl)
      show (n.server.reached peer).creditedMatch peer args p ≤ K
      by_cases hpp : p = peer
      · subst hpp
        rw [Server.creditedMatch_self]
        exact max_le (hup.credited p hp)
          ((Nat.mod_le _ _).trans (hreply p args reply rfl hp hsame.symm hsuccess))
      · rw [Server.creditedMatch_of_ne _ hpp]
        exact hup.credited p hp
  | contactFailed peer => exact hlim.congr rfl rfl
  | electionTimeout r hr =>
    cases Server.electionTimeout_way hr with
    | alone hrole | campaigns hrole => exact absurd hlead hrole
  | proposed request w s hp => exact proposed hp
  | atOnce request w s hp => exact proposed hp
  | sendRequestVotes | replicate | refused | wake => exact hlim

namespace Cluster

variable {conf : Config} {c c' : Cluster} {tr tr' evs : List (ℕ × Node.Event)} {a a' : Abstract}
  {V : Finset ℕ} {i t K : ℕ}

/-! ## The invariant -/

/-- **Leader `i` of term `t` is left behind** by the nodes of `V`: what they have accepted from it
reaches up to `K`. -/
structure LeftBehind (conf : Config) (V : Finset ℕ) (i t K : ℕ) (c : Cluster) : Prop where
  ahead : ∀ v ∈ V, t < c.term v
  floor : t ≤ c.term i
  /-- in this term there is no second election for it -/
  idle : c.term i = t → (c.hosts i).server.role ≠ .candidate
  replies : ∀ {b p args reply}, .appendEntriesReply i b p args reply ∈ c.network → p ∈ V →
    args.term = t → reply.success = true → args.prevLogIndex + args.entries.length ≤ K
  limited : c.term i = t → (c.hosts i).server.role = .leader → (c.hosts i).server.Limited V K

/-- It begins when the nodes of `V` have gone on to later terms. -/
theorem Refined.leftBehind (h : Refined conf tr c a) (hi : i ∈ conf.members)
    (hrole : (c.hosts i).server.role = .leader) (hV : V ⊆ conf.members)
    (hahead : ∀ v ∈ V, c.term i < c.term v) :
    LeftBehind conf V i (c.term i) (c.hosts i).server.logEntries.length c := by
  have href := h.refines hi
  have hst := h.standing hi
  have hterm : c.term i = a.term i := href.term
  have hlog : (c.hosts i).server.logEntries = a.leaderLog (c.term i) := by
    rw [hterm]
    exact href.log.trans (h.sim.logInv.leader_log i (hst.leads hrole))
  refine ⟨hahead, le_rfl, fun _ hcand => absurd (hrole.symm.trans hcand) (by simp),
    fun {b p args reply} hp hpV ht hsuccess => ?_, fun _ _ => ⟨fun p hp => ?_, ?_⟩⟩
  · have hacked : args.prevLogIndex + args.entries.length ≤ a.acked p args.term :=
      h.sim.packets _ hp hsuccess
    rw [hlog, ← ht]
    exact hacked.trans (h.sim.logInv.acked_le p args.term)
  · have hpi : p ≠ i := by
      rintro rfl
      exact absurd (hahead p hp) (lt_irrefl _)
    have hpeer : p ∈ (c.hosts i).server.peers := by
      rw [href.peers]
      exact (conf.mem_peers i hi p).mpr ⟨hV hp, hpi⟩
    rw [hlog, hterm]
    exact (hst.matched hrole p hpeer).trans (h.sim.logInv.acked_le p _)
  · rw [href.commit, href.log]
    exact h.sim.commit_le_log i

/-- What a node of a later term answers is no. -/
theorem LeftBehind.sent (h : LeftBehind conf V i t K c) (ht : t < 2 ^ 64) {j : ℕ} {g : Trigger}
    {x : Input} {net sent : List Packet} (hfetch : c.fetch j g = some (x, net))
    (hsends : Sends j (c.hosts j) g x sent) {b p : ℕ} {args : AppendEntriesArgs}
    {reply : AppendEntriesReply} (hp : .appendEntriesReply i b p args reply ∈ sent) (hpV : p ∈ V)
    (hterm : args.term = t) : reply.success ≠ true := by
  cases hsends with
  | none | voteReply | append => exact absurd hp (by simp)
  | votes =>
    obtain ⟨k, -, heq⟩ := List.mem_map.mp hp
    exact absurd heq (by simp)
  | appendReply caller b' callee args₀ args' r hg hx hr =>
    obtain ⟨-, -, rfl, rfl, rfl⟩ := Packet.appendEntriesReply.inj (List.mem_singleton.mp hp)
    have hterm' : args'.term = t := by
      subst hg hx
      rcases fetch_eq_some hfetch with ⟨heq, -, -⟩ | ⟨q, heq, -, hx, -⟩
      · exact absurd heq (by simp)
      · rw [← Trigger.packet.inj heq] at hx
        cases hx with
        | appendEntries _ _ _ _ hargs =>
          rw [receiveAppendEntries_term hargs, hterm, Nat.mod_eq_of_lt ht]
    cases Server.handleAppendEntries_way hr with
    | old | mismatch => simp
    | stored hnew => exact absurd (h.ahead p hpV) (by rw [hterm'] at hnew; exact hnew)

/-- A node that leads term `t` after a section has led it before. -/
theorem LeftBehind.stays (h : LeftBehind conf V i t K c) {g : Trigger} {x : Input}
    {net : List Packet} {m : Node} {os : List Output} (hadm : c.Admissible (.run i g))
    (hfetch : c.fetch i g = some (x, net)) (hm : (c.hosts i).handle x = some (m, os))
    (hmono : c.term i ≤ m.server.metadata.currentTerm) (hterm : m.server.metadata.currentTerm = t)
    (hrole : m.server.role ≠ .follower) :
    (c.hosts i).server.role = .leader ∧ c.term i = t ∧ m.server.role = .leader := by
  have hold : c.term i = t := le_antisymm (hterm ▸ hmono) h.floor
  -- a new candidacy would be in a later term
  have hno : x = .electionTimeout →
      m.server.metadata.currentTerm = ((c.hosts i).server.metadata.currentTerm + 1) % 2 ^ 64 →
      False := by
    rintro rfl heq
    have hwrap := hadm.1 (fetch_of_isLocal hfetch rfl)
    have : (c.hosts i).server.metadata.currentTerm = t := hold
    rw [term, this] at hwrap
    rw [this, Nat.mod_eq_of_lt hwrap] at heq
    omega
  cases Node.handle_turn hm with
  | quiet hq =>
    rcases hr : m.server.role with _ | _ | _
    · exact absurd hr hrole
    · exact absurd (hq.candidate hr).1 (h.idle hold)
    · exact ⟨(hq.leader hr).1, hold, rfl⟩
  | candidacy hx hrole' hterm' => exact absurd (hno hx hterm') id
  | counted hx hgranted hcand => exact absurd hcand (h.idle hold)
  | elected pre post heff hpre hpost hrole' hwin =>
    rcases hwin with ⟨-, -, hterm', hx⟩ | ⟨reply, -, -, hcand, -⟩
    · exact absurd (hno hx hterm') id
    · exact absurd hcand (h.idle hold)

/-- What is kept of the leader itself. -/
theorem LeftBehind.handle (h : LeftBehind conf V i t K c) (href : Refined conf tr c a)
    (hi : i ∈ conf.members) (hV : conf.Majority V) {g : Trigger} {x : Input} {net : List Packet}
    {m : Node} {os : List Output} (hadm : c.Admissible (.run i g))
    (hfetch : c.fetch i g = some (x, net)) (hm : (c.hosts i).handle x = some (m, os))
    (hmono : c.term i ≤ m.server.metadata.currentTerm) (hterm : m.server.metadata.currentTerm = t)
    (hrole : m.server.role = .leader) : m.server.Limited V K := by
  obtain ⟨hold, hterm', -⟩ := h.stays hadm hfetch hm hmono hterm (by simp [hrole])
  have hiV : i ∉ V := fun hmem => absurd (h.ahead i hmem) (by omega)
  refine Node.handle_limited hm hold hrole (h.limited hterm' hold) (fun s hs => ?_)
    fun peer args reply hx hpeer ht hsuccess => ?_
  · exact Server.needsOneOf hi (hs.trans (href.refines hi).peers) hV hiV
  · subst hx
    rcases fetch_eq_some hfetch with ⟨-, hloc, -⟩ | ⟨p, -, hp, hx, -⟩
    · exact absurd hloc (by simp [Input.isLocal])
    cases hx with
    | appendEntriesReply => exact h.replies hp hpeer (ht.trans hterm') hsuccess

theorem LeftBehind.step (h : LeftBehind conf V i t K c) (href : Refined conf tr c a)
    (hi : i ∈ conf.members) (hV : conf.Majority V) {x : Action} (hadm : c.Admissible x)
    (hs : step conf c x = some (c', evs)) : LeftBehind conf V i t K c' := by
  obtain ⟨a', hg, -, href'⟩ := href.step hadm hs
  have hmono : ∀ j ∈ conf.members, c.term j ≤ c'.term j := fun j hj => by
    rw [term, term, (href.refines hj).term, (href'.refines hj).term]
    exact hg.term j
  have ht : t < 2 ^ 64 := h.floor.trans_lt (href.elections.term_lt hi)
  have hahead : ∀ v ∈ V, t < c'.term v := fun v hv => (h.ahead v hv).trans_le (hmono v (hV.1 hv))
  have hfloor : t ≤ c'.term i := h.floor.trans (hmono i hi)
  cases step_moves hs with
  | run j g x net m os hj hfetch hm =>
    have hreplies : ∀ {b p args reply}, .appendEntriesReply i b p args reply ∈ net ++
        os.flatMap (Output.packets j (c.hosts j).boot (c.hosts j).server.peers g) → p ∈ V →
        args.term = t → reply.success = true → args.prevLogIndex + args.entries.length ≤ K := by
      intro b p args reply hp hpV hterm hsuccess
      rcases List.mem_append.mp hp with hp | hp
      · exact h.replies (fetch_subset hfetch hp) hpV hterm hsuccess
      · exact absurd hsuccess (h.sent ht hfetch (handle_sends hfetch hm) hp hpV hterm)
    by_cases hji : i = j
    · subst hji
      have hmono' := hmono i hi
      simp only [term, Function.update_self] at hmono'
      refine ⟨hahead, hfloor, fun hterm hcand => ?_, hreplies, fun hterm hrole => ?_⟩
      · simp only [term, Function.update_self] at hterm hcand
        obtain ⟨-, -, hlead⟩ := h.stays hadm hfetch hm hmono' hterm (by
          rw [show m.server.role = .candidate from hcand]
          simp)
        exact absurd (hlead.symm.trans hcand) (by simp)
      · simp only [term, Function.update_self] at hterm hrole ⊢
        exact (h.handle href hi hV hadm hfetch hm hmono' hterm hrole).congr rfl rfl
    · refine ⟨hahead, hfloor, ?_, hreplies, ?_⟩
      · simp only [term, Function.update_of_ne hji]
        exact h.idle
      · simp only [term, Function.update_of_ne hji]
        exact h.limited
  | crash j retries hj =>
    have hrole := Node.restart_role (c.hosts j) retries (c.hosts j).files
    by_cases hji : i = j
    · subst hji
      refine ⟨hahead, hfloor, fun _ => ?_, h.replies, fun _ hlead => ?_⟩
      · dsimp only
        rw [Function.update_self, hrole]
        simp
      · dsimp only at hlead
        rw [Function.update_self, hrole] at hlead
        exact absurd hlead (by simp)
    · refine ⟨hahead, hfloor, ?_, h.replies, ?_⟩
      · simp only [term, Function.update_of_ne hji]
        exact h.idle
      · simp only [term, Function.update_of_ne hji]
        exact h.limited
  | crashIn => exact absurd hadm id
  | lose p hp =>
    exact ⟨hahead, hfloor, h.idle, fun hq => h.replies (List.erase_subset hq), h.limited⟩

/-! ## What it cannot do -/

/-- **A leader that is left behind commits nothing new.**  Once a majority has gone on to later
terms, the leader's commit index does not pass the log that it has at this moment, as long as it
leads this term; and no client gets a result from it for a request that comes later. -/
theorem left_behind (h : Run (machine conf) Admissible tr c)
    (hpath : Path (machine conf) Admissible c tr' c') (hi : i ∈ conf.members)
    (hrole : (c.hosts i).server.role = .leader) (hV : conf.Majority V)
    (hahead : ∀ v ∈ V, c.term i < c.term v) :
    ((c'.hosts i).server.role = .leader → c'.term i = c.term i →
        (c'.hosts i).server.metadata.commitIndex ≤ (c.hosts i).server.logEntries.length) ∧
      ∀ w answer s, (i, .output (.answered w answer s)) ∈ tr' →
        s.metadata.currentTerm = c.term i →
          (c.hosts i).server.logEntries.length < w.index → answer.isResult = false := by
  obtain ⟨a, ha⟩ := refined h
  have hinv := Path.invariant (M := machine conf) (P := Admissible) (s := c)
    (I := fun tr' c' => LeftBehind conf V i (c.term i) (c.hosts i).server.logEntries.length c' ∧
      ∀ w answer s, (i, .output (.answered w answer s)) ∈ tr' →
        s.metadata.currentTerm = c.term i →
          (c.hosts i).server.logEntries.length < w.index → answer.isResult = false)
    ⟨ha.leftBehind hi hrole hV.1 hahead, fun _ _ _ hmem => absurd hmem List.not_mem_nil⟩ ?_ hpath
  · exact ⟨fun hrole' hterm => (hinv.1.limited hterm hrole').commit, hinv.2⟩
  rintro tr₁ c₁ x c₂ evs hp ⟨hI, hans⟩ hadm hs
  obtain ⟨a₁, ha₁⟩ := refined (h.path hp)
  have hI' := hI.step ha₁ hi hV hadm hs
  refine ⟨hI', fun w answer s hmem hterm hlt => ?_⟩
  rcases List.mem_append.mp hmem with hmem | hmem
  · exact hans w answer s hmem hterm hlt
  cases step_moves hs with
  | run j g x net m os hj hfetch hm =>
    obtain ⟨rfl, hout⟩ := mem_tag.mp hmem
    obtain ⟨rfl, rfl, -⟩ := (Node.handle_serves hm).of_answered (by simpa using hout)
    by_contra hres
    obtain ⟨hlead, hle, -⟩ := Server.answer_isResult (Bool.eq_true_of_not_eq_false hres)
    have hlim := hI'.limited (by simpa [term, Node.flush] using hterm)
      (by simpa [Node.flush] using hlead)
    have hcommit := hlim.commit
    simp only [Function.update_self, Node.flush] at hcommit
    omega
  | crash j retries hj => exact absurd hmem (by simp [tag])
  | crashIn => exact absurd hadm id
  | lose => exact absurd hmem List.not_mem_nil

/-- The first leader is left behind by nodes 2 and 3, and a client comes to it. -/
theorem left_behind_put : ∃ tr c tr' c', Run (machine .three) Admissible tr c ∧
    Path (machine .three) Admissible c tr' c' ∧
    (c.hosts 1).server.logEntries.length = 1 ∧
    (c'.hosts 1).waiting = [⟨.put [107] [118], 2, 1⟩] ∧
    ((c'.hosts 1).server.role = .leader → c'.term 1 = c.term 1 →
        (c'.hosts 1).server.metadata.commitIndex ≤ (c.hosts 1).server.logEntries.length) ∧
      ∀ w answer s, (1, .output (.answered w answer s)) ∈ tr' →
        s.metadata.currentTerm = c.term 1 →
          (c.hosts 1).server.logEntries.length < w.index → answer.isResult = false := by
  obtain ⟨tr, c, tr', c', hrun, hpath, h⟩ := Run.exists_path_of_exec admissible_of_admits
    (M := machine .three)
    (fun c c' => decide ((c.hosts 1).server.role = .leader ∧ c.term 1 < c.term 2 ∧
      c.term 1 < c.term 3 ∧ (c.hosts 1).server.logEntries.length = 1 ∧
      (c'.hosts 1).waiting = [⟨.put [107] [118], 2, 1⟩]))
    (firstLeader ++ campaign 2 3 2 1 1)
    [.run 1 (.thread (.propose (.put [107] [118])))]
    (by decide +kernel)
  obtain ⟨hrole, h2, h3, hlen, hwait⟩ := of_decide_eq_true h
  exact ⟨tr, c, tr', c', hrun, hpath, hlen, hwait,
    left_behind hrun hpath (by decide) hrole (V := {2, 3}) ⟨by decide, by decide⟩ (by
      simp only [Finset.mem_insert, Finset.mem_singleton, forall_eq_or_imp, forall_eq]
      exact ⟨h2, h3⟩)⟩

end Cluster

end RaftConsensus
