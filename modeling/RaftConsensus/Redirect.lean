import RaftConsensus.Candidacy

/-!
# Where clients are sent

A node that does not lead turns clients away, and `notLeaderMsg` names the node that it takes
for the leader.  `Node.Hint` lists what a section does to that name: it keeps it with its
role and its term, forgets it, learns it from an `AppendEntries`, or puts its own id there
when it wins.  Whoever sends an `AppendEntries` is the leader of its term and signs with its
own id, and nobody sends one to itself.  So a name is the name of the winner of the term.

* `redirects_name_leader`: in every state of every run, whom a node names is the one member
  that ever entered `becomeLeader` in the term of the node.
-/

namespace RaftConsensus

/-! ## What a section does to the name -/

namespace Server

variable {s s' : Server}

/-- The name, the role and the term stay. -/
structure KeepsHint (s s' : Server) : Prop where
  leaderId : s'.currentLeaderId = s.currentLeaderId
  role : s'.role = s.role
  term : s'.metadata.currentTerm = s.metadata.currentTerm

theorem KeepsHint.refl (s : Server) : KeepsHint s s := ⟨rfl, rfl, rfl⟩

theorem Steady.keepsHint (h : Steady s s') : KeepsHint s s' := ⟨h.leaderId, h.role, h.term⟩

/-- A server that forgets whom it took for the leader does not lead itself. -/
structure Forgets (s' : Server) : Prop where
  leaderId : s'.currentLeaderId = 0
  role : s'.role ≠ .leader

theorem stepDown_forgets (s : Server) (t : ℕ) : Forgets (s.stepDown t) :=
  ⟨rfl, by simp [stepDown_eq, adoptTerm]⟩

theorem Forgets.keeps (h : Forgets s) (hk : KeepsHint s s') : Forgets s' :=
  ⟨hk.leaderId.trans h.leaderId, fun hr => h.role (hk.role ▸ hr)⟩

theorem handleRequestVote_hint (s : Server) (args : RequestVoteArgs) :
    KeepsHint s (s.handleRequestVote args).2 ∨ Forgets (s.handleRequestVote args).2 := by
  have hmeet : KeepsHint s (s.meetTerm args.term) ∨ Forgets (s.meetTerm args.term) := by
    unfold meetTerm
    split
    · exact Or.inr (s.stepDown_forgets args.term)
    · exact Or.inl (.refl s)
  generalize hr : s.handleRequestVote args = r
  cases handleRequestVote_way hr with
  | old => exact Or.inl (.refl s)
  | granted =>
    rcases hmeet with hkeep | hforget
    · exact Or.inl ⟨hkeep.leaderId, hkeep.role, hkeep.term⟩
    · exact Or.inr ⟨hforget.leaderId, hforget.role⟩
  | denied => exact hmeet

/-- **Whom a follower takes for the leader**: the sender of the request, in its term. -/
theorem handleAppendEntries_hint {args : AppendEntriesArgs} {r : AppendEntriesReply × Server}
    (h : s.handleAppendEntries args = some r) :
    KeepsHint s r.2 ∨ r.2.currentLeaderId = args.leaderId ∧ r.2.role = .follower ∧
      r.2.metadata.currentTerm = args.term := by
  have hrec : ¬ args.term < s.metadata.currentTerm →
      (s.recognizeLeader args).currentLeaderId = args.leaderId ∧
      (s.recognizeLeader args).role = .follower ∧
      (s.recognizeLeader args).metadata.currentTerm = args.term := by
    intro hterm
    refine ⟨?_, ?_, recognizeLeader_term hterm⟩ <;> rw [recognizeLeader_eq] <;> split <;> rfl
  cases handleAppendEntries_way h with
  | old => exact Or.inl (.refl s)
  | mismatch hterm => exact Or.inr (hrec hterm)
  | stored hterm hprev s' hs' =>
    obtain ⟨hid, hrole, hterm'⟩ := hrec hterm
    obtain ⟨es, hc⟩ := s'.followCommit_commits args
    have hsteady := (storeEntries_steady hs').trans (.commits hc)
    exact Or.inr ⟨hsteady.leaderId.trans hid, hsteady.role.trans hrole,
      hsteady.term.trans hterm'⟩

theorem handleAppendEntriesReply_hint (s : Server) (peer : ℕ) (args : AppendEntriesArgs)
    (reply : AppendEntriesReply) : KeepsHint s (s.handleAppendEntriesReply peer args reply) ∨
      Forgets (s.handleAppendEntriesReply peer args reply) := by
  by_cases ht : s.metadata.currentTerm < reply.term
  · generalize hs' : s.handleAppendEntriesReply peer args reply = s'
    cases handleAppendEntriesReply_way hs' with
    | stepsDown => exact Or.inr (stepDown_forgets _ _)
    | ignored hle | credited hle | backed hle => exact absurd ht hle
  · exact Or.inl (handleAppendEntriesReply_steady peer args ht).keepsHint

end Server

namespace Node

/-- **What a section can do to the name of the leader.** -/
inductive Hint (n : Node) (x : Input) (m : Node) : Prop
  | kept (h : n.server.KeepsHint m.server)
  | forgotten (h : m.server.Forgets)
  | told (args : AppendEntriesArgs) (hx : x = .appendEntries args)
      (hid : m.server.currentLeaderId = args.leaderId) (hrole : m.server.role = .follower)
      (hterm : m.server.metadata.currentTerm = args.term)
  | won (hid : m.server.currentLeaderId = n.server.nodeId) (hrole : m.server.role = .leader)

variable {n m : Node}

theorem handleRequestVoteReply_hint (t : ℕ) (reply : RequestVoteReply) :
    Hint n (.requestVoteReply t reply)
      { n with server := n.server.handleRequestVoteReply t reply } := by
  generalize hs' : n.server.handleRequestVoteReply t reply = s'
  cases Server.handleRequestVoteReply_way hs' with
  | stepsDown => exact .forgotten (n.server.stepDown_forgets _)
  | ignored => exact .kept (.refl _)
  | won =>
    obtain ⟨hrole, hid, -⟩ := n.server.countVote.becomeLeader_frame
    exact .won hid hrole
  | counted => exact .kept ⟨rfl, rfl, rfl⟩

theorem electionTimeout_hint {r : Bool × Server} (h : n.server.electionTimeout = some r) :
    Hint n .electionTimeout { n with server := r.2, campaigning := r.1 } := by
  cases Server.electionTimeout_way h with
  | alone =>
    obtain ⟨hrole, hid, -⟩ := n.server.becomeCandidate.becomeLeader_frame
    exact .won hid hrole
  | campaigns =>
    exact .forgotten ⟨rfl, by simp [Server.becomeCandidate, Server.persistMetaData, Server.emit]⟩

/-- **Every section is one of the four.** -/
theorem handle_hint {x : Input} {r : Node × List Output} (hr : n.handle x = some r) :
    Hint n x r.1 := by
  obtain ⟨m, os⟩ := r
  cases handle_section hr with
  | requestVote args =>
    rcases n.server.handleRequestVote_hint args with h | h
    · exact .kept h
    · exact .forgotten h
  | appendEntries args r hr' =>
    rcases Server.handleAppendEntries_hint hr' with h | ⟨hid, hrole, hterm⟩
    · exact .kept h
    · exact .told args rfl hid hrole hterm
  | requestVoteReply t reply => exact handleRequestVoteReply_hint t reply
  | appendEntriesReply peer args reply =>
    rcases n.server.handleAppendEntriesReply_hint peer args reply with h | h
    · exact .kept h
    · exact .forgotten h
  | contactFailed peer => exact .kept ⟨rfl, rfl, rfl⟩
  | electionTimeout r hr' => exact electionTimeout_hint hr'
  | proposed request w s hp => exact .kept (Server.propose_steady hp).keepsHint
  | atOnce request w s hp => exact .kept (Server.propose_steady hp).keepsHint
  | sendRequestVotes | replicate | refused | wake => exact .kept (.refl _)

/-- A node just started takes nobody for the leader. -/
theorem restart_forgets (n : Node) (cs : List CrashPoint) (files : Files) :
    (n.restart cs files).1.server.Forgets := by
  refine ⟨?_, by rw [restart_role]; simp⟩
  rw [restart, start, recover_eq]
  rfl

end Node

namespace Cluster

variable {conf : Config} {c c' : Cluster} {tr evs : List (ℕ × Node.Event)}

/-! ## The invariant -/

/-- Member `i` executed `becomeLeader` in term `t`. -/
def Led (tr : List (ℕ × Node.Event)) (i t : ℕ) : Prop :=
  ∃ log, (i, .effect (.becomeLeader t log)) ∈ tr

theorem Led.mono {i t : ℕ} (h : Led tr i t) (evs : List (ℕ × Node.Event)) : Led (tr ++ evs) i t := by
  obtain ⟨log, hlog⟩ := h
  exact ⟨log, List.mem_append_left _ hlog⟩

theorem ElectionInv.led (h : ElectionInv conf tr c) {i : ℕ} (hi : i ∈ conf.members)
    (hrole : (c.hosts i).server.role = .leader) : Led tr i (c.term i) := by
  obtain ⟨log, hlog⟩ := h.leads i hi hrole
  exact ⟨log, mem_effects.mp hlog⟩

/-- The name that server `s` of member `i` has is that of the leader of its term, and its own only
if it leads. -/
structure Named (tr : List (ℕ × Node.Event)) (i : ℕ) (s : Server) : Prop where
  led : s.currentLeaderId ≠ 0 → Led tr s.currentLeaderId s.metadata.currentTerm
  other : s.role ≠ .leader → s.currentLeaderId ≠ i

theorem Named.mono {i : ℕ} {s : Server} (h : Named tr i s) (evs : List (ℕ × Node.Event)) :
    Named (tr ++ evs) i s := ⟨fun hne => (h.led hne).mono evs, h.other⟩

theorem Named.of_forgets {i : ℕ} {s : Server} (hi : i ≠ 0) (h : s.Forgets) : Named tr i s :=
  ⟨fun hne => absurd h.leaderId hne, fun _ heq => hi (heq.symm.trans h.leaderId)⟩

/-- An `AppendEntries` is signed by its sender, which leads its term. -/
def Signed (tr : List (ℕ × Node.Event)) : Packet → Prop
  | .appendEntries caller _ callee args =>
    args.leaderId = caller ∧ caller ≠ callee ∧ Led tr caller args.term
  | _ => True

theorem Signed.mono {p : Packet} (h : Signed tr p) (evs : List (ℕ × Node.Event)) :
    Signed (tr ++ evs) p := by
  rcases p with _ | _ | ⟨i, b, j, args⟩ | _
  · trivial
  · trivial
  · exact ⟨h.1, h.2.1, h.2.2.mono evs⟩
  · trivial

/-- **The invariant of names.** -/
structure HintInv (conf : Config) (tr : List (ℕ × Node.Event)) (c : Cluster) : Prop where
  named : ∀ i ∈ conf.members, Named tr i (c.hosts i).server
  signed : ∀ p ∈ c.network, Signed tr p

/-- What a section sends is signed. -/
theorem signed_sends (h : ElectionInv conf tr c) {i : ℕ} (hi : i ∈ conf.members) {g : Trigger}
    {x : Input} {sent : List Packet} (hsends : Sends i (c.hosts i) g x sent) :
    ∀ p ∈ sent, Signed tr p := by
  intro p hp
  cases hsends with
  | none => exact absurd hp (by simp)
  | voteReply caller b callee args hg hx =>
    rw [List.mem_singleton.mp hp]
    trivial
  | appendReply caller b callee args args' r hg hx hr =>
    rw [List.mem_singleton.mp hp]
    trivial
  | votes hg hx hcamp =>
    obtain ⟨k, -, rfl⟩ := List.mem_map.mp hp
    trivial
  | append peer args hx hpeer hargs =>
    rw [List.mem_singleton.mp hp]
    have hset := h.settled i hi
    rw [hset.tracked.peers] at hpeer
    rw [Server.appendEntriesArgs] at hargs
    split at hargs
    · exact absurd hargs (by simp)
    · next hrole =>
      rw [← Option.some.inj hargs]
      exact ⟨hset.tracked.nodeId, (((conf.mem_peers i hi peer).mp hpeer).2).symm,
        h.led hi (not_not.mp hrole)⟩

/-- **A name that a section leaves is right**, if those before it were. -/
theorem HintInv.named_run (h : HintInv conf tr c) (hel : ElectionInv conf tr c) {i : ℕ}
    (hi : i ∈ conf.members) {g : Trigger} {x : Input} {net : List Packet} {m : Node}
    {os : List Output} (hfetch : c.fetch i g = some (x, net))
    (hm : (c.hosts i).handle x = some (m, os))
    (hlead : m.server.role = .leader → Led (tr ++ evs) i m.server.metadata.currentTerm) :
    Named (tr ++ evs) i m.server := by
  have hid := (hel.settled i hi).tracked.nodeId
  cases Node.handle_hint hm with
  | kept hk =>
    have hold := (h.named i hi).mono evs
    refine ⟨fun hne => ?_, fun hrole => ?_⟩
    · rw [hk.leaderId] at hne ⊢
      rw [hk.term]
      exact hold.led hne
    · rw [hk.leaderId]
      exact hold.other (hk.role ▸ hrole)
  | forgotten hf => exact .of_forgets (conf.ne_zero i hi) hf
  | told args hx hleader hrole hterm =>
    subst hx
    rcases fetch_eq_some hfetch with ⟨-, hloc, -⟩ | ⟨p, -, hp, hdel, -⟩
    · exact absurd hloc (by simp [Input.isLocal])
    cases hdel with
    | appendEntries caller b sent _ hrec =>
      obtain ⟨hsig, hne, hled⟩ := h.signed _ hp
      obtain ⟨hcaller, -, hle⟩ := hel.packets _ hp
      -- neither the id nor the term of a member is cut on the way
      obtain ⟨ht, hl, -⟩ := receiveAppendEntries_header hrec
      rw [Nat.mod_eq_of_lt (hle.trans_lt (hel.term_lt hcaller))] at ht
      rw [hsig, Nat.mod_eq_of_lt (conf.lt caller hcaller)] at hl
      rw [hl] at hleader
      rw [ht] at hterm
      refine ⟨fun _ => ?_, fun _ => ?_⟩
      · rw [hleader, hterm]
        exact hled.mono evs
      · rw [hleader]
        exact hne
  | won hown hrole =>
    rw [hid] at hown
    refine ⟨fun _ => ?_, fun hne => absurd hrole hne⟩
    rw [hown]
    exact hlead hrole

/-- **Every step keeps the invariant of names.** -/
theorem HintInv.step (h : HintInv conf tr c) (hel : ElectionInv conf tr c) {a : Action}
    (ha : Intact c a) (hs : step conf c a = some (c', evs)) : HintInv conf (tr ++ evs) c' := by
  have hel' := hel.step ha hs
  -- a step of one member: the others keep their names
  have of_node : ∀ {i : ℕ} {n : Node} {net : List Packet},
      c' = ⟨Function.update c.hosts i n, net⟩ → Named (tr ++ evs) i n.server →
        ∀ j ∈ conf.members, Named (tr ++ evs) j (c'.hosts j).server := by
    intro i n net hc' hn
    subst hc'
    exact forall_mem_update (Q := fun j n => Named (tr ++ evs) j n.server) hn fun j hj _ => (h.named j hj).mono evs
  cases step_moves hs with
  | run i g x net m os hi hfetch hm =>
    have hnamed := h.named_run hel hi hfetch hm fun hrole => by
      have hled := hel'.led hi (by simpa [Node.flush] using hrole)
      rwa [term_update_self] at hled
    refine ⟨of_node rfl ⟨hnamed.led, hnamed.other⟩, fun p hp => ?_⟩
    rcases List.mem_append.mp hp with hp | hp
    · exact (h.signed p (fetch_subset hfetch hp)).mono _
    · exact (signed_sends hel hi (handle_sends hfetch hm) p hp).mono _
  | crash i retries hi =>
    exact ⟨of_node rfl (.of_forgets (conf.ne_zero i hi) (Node.restart_forgets _ _ _)),
      fun p hp => (h.signed p hp).mono _⟩
  | crashIn i g p retries x net m os hi hfetch hm =>
    exact ⟨of_node rfl (.of_forgets (conf.ne_zero i hi) (Node.restart_forgets _ _ _)),
      fun q hq => (h.signed q (fetch_subset hfetch hq)).mono _⟩
  | lose p hp =>
    exact ⟨fun i hi => (h.named i hi).mono _,
      fun q hq => (h.signed q (List.mem_of_mem_erase hq)).mono _⟩

theorem hintInv (h : Run (machine conf) Intact tr c) : HintInv conf tr c := by
  refine h.invariant (I := fun tr c => HintInv conf tr c) ?_ ?_
  · refine ⟨fun i hi => .of_forgets (conf.ne_zero i hi) ⟨?_, ?_⟩,
      fun p hp => absurd hp (by simp [machine, initial])⟩
    · show (Node.start i (conf.peers i) Files.none 0).server.currentLeaderId = 0
      rw [Node.start, recover_eq]
      rfl
    · show (Node.start i (conf.peers i) Files.none 0).server.role ≠ .leader
      rw [Node.start_role]
      simp
  · intro tr s a s' es hrun hI hP hs
    exact hI.step (electionInv hrun) hP hs

/-! ## The redirect -/

/-- Nodes that do not lead send clients to the leader of their term, and two nodes in one term that
know a leader know the same one. -/
structure RedirectsRight (conf : Config) (tr : List (ℕ × Node.Event)) (c : Cluster) : Prop where
  named : ∀ i ∈ conf.members, (c.hosts i).server.role ≠ .leader →
    ∀ N ≠ 0, (c.hosts i).server.currentLeaderId = N →
      (c.hosts i).server.notLeaderMsg = .notLeader N ∧ N ≠ i ∧
        ∀ j, Led tr j (c.term i) ↔ j = N
  agree : ∀ i ∈ conf.members, ∀ j ∈ conf.members, c.term i = c.term j →
    (c.hosts i).server.currentLeaderId ≠ 0 → (c.hosts j).server.currentLeaderId ≠ 0 →
      (c.hosts i).server.currentLeaderId = (c.hosts j).server.currentLeaderId

/-- **A redirect names the leader** of the term, in every state of every run. -/
theorem redirects_name_leader (h : Run (machine conf) Intact tr c) : RedirectsRight conf tr c := by
  have hinv := hintInv h
  have unique : ∀ {i j t : ℕ}, Led tr i t → Led tr j t → i = j := by
    rintro i j t ⟨log, hi⟩ ⟨log', hj⟩
    exact becomeLeader_unique h hi hj
  refine ⟨fun i hi hrole N hN hid => ?_, fun i hi j hj hterm hne hne' => ?_⟩
  · have hn := hinv.named i hi
    have hled := hn.led (hid ▸ hN)
    have hother := hn.other hrole
    rw [hid] at hled hother
    refine ⟨?_, hother, fun j => ⟨fun hj => unique hj hled, fun hj => hj ▸ hled⟩⟩
    rw [Server.notLeaderMsg, if_neg (hid ▸ hN), hid]
  · have hled := (hinv.named i hi).led hne
    have hled' := (hinv.named j hj).led hne'
    rw [show (c.hosts i).server.metadata.currentTerm = _ from hterm] at hled
    exact unique hled hled'

/-- Node 2 has heard of the first leader and sends clients there; node 3 has not. -/
theorem redirects_name_leader_first : ∃ tr c, Run (machine .three) Intact tr c ∧
    RedirectsRight .three tr c ∧ (c.hosts 2).server.role = .follower ∧
    (c.hosts 2).server.notLeaderMsg = .notLeader 1 ∧
    (c.hosts 3).server.notLeaderMsg = .unknownLeader := by
  obtain ⟨tr, c, hrun, h⟩ := Run.exists_of_exec admissible_of_admits (M := machine .three)
    (fun c _ => decide ((c.hosts 2).server.role = .follower ∧
      (c.hosts 2).server.notLeaderMsg = .notLeader 1 ∧
      (c.hosts 3).server.notLeaderMsg = .unknownLeader))
    firstLeader (by decide +kernel)
  have hrun' := hrun.mono fun _ _ => Admissible.intact
  exact ⟨tr, c, hrun', redirects_name_leader hrun', of_decide_eq_true h⟩

end Cluster

end RaftConsensus
