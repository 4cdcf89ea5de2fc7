import RaftConsensus.Backtracking
import RaftConsensus.Safety

/-!
# Rounds of messages

What the members of a cluster can get done, with nobody crashing and no message lost: `Calm` steps
are the sections that run to their end.  `Unaided` steps are those of them that need no client
either, and in which no connection fails.  A round is a message, the section of the node that it is
for, and the section that handles the reply.

* `leads_timeout`: a node stands for election.
* `leads_ballot`: a candidate gets the answer to a request that it has sent.
* `Reached.exchange`: a leader sends its entries to a peer, and gets the answer.
-/

namespace RaftConsensus

/-- The node after a section that has left its server as `s`. -/
def Node.leave (n : Node) (s : Server) : Node := { n with server := s }.flush

namespace Node

variable (n : Node) (s : Server)

theorem leave_server : (n.leave s).server = { s with effects := [] } := rfl

/-- A section that has done nothing leaves the node as it was. -/
theorem flush_of_clean {n : Node} (h : n.server.effects = []) : n.flush = n := by
  rcases n with ⟨s, files, campaigning, waiting, boot⟩
  rcases s with ⟨_, _, _, _, _, _, _, _, _, _, _, _, effects⟩
  obtain rfl : effects = [] := h
  rfl

end Node

/-- What a member does on its own: its timer runs out, it asks for votes, it sends entries, or a
message arrives.  It is no client's line, no end of a client's wait, and no connection that
fails. -/
def Trigger.unaided : Trigger → Bool
  | .thread .electionTimeout => true
  | .thread .sendRequestVotes => true
  | .thread (.replicate _) => true
  | .thread _ => false
  | .packet _ => true

namespace Cluster

variable {conf : Config} {c c' : Cluster} {i p : ℕ} {Q : Cluster → Prop}

/-- Nobody crashes, and no message is lost. -/
def Calm (c : Cluster) (x : Action) : Prop := c.Admissible x ∧ ∃ i g, x = .run i g

/-- Nobody crashes, no message is lost, no connection fails, and no client comes. -/
def Unaided (c : Cluster) (x : Action) : Prop :=
  c.Admissible x ∧ ∃ i g, x = .run i g ∧ g.unaided = true

theorem Unaided.calm {x : Action} (h : c.Unaided x) : c.Calm x := by
  obtain ⟨hadm, i, g, hx, -⟩ := h
  exact ⟨hadm, i, g, hx⟩

/-- Some run gets here. -/
def Reached (conf : Config) (c : Cluster) : Prop := ∃ tr, Run (machine conf) Admissible tr c

theorem Reached.path {tr : List (ℕ × Node.Event)} (h : Reached conf c)
    (hp : Path (machine conf) Calm c tr c') : Reached conf c' := by
  obtain ⟨tr₀, hrun⟩ := h
  exact ⟨tr₀ ++ tr, hrun.path (hp.mono fun _ _ hx => hx.1)⟩

theorem Reached.keep (h : Reached conf c) (hl : Leads (machine conf) Unaided c Q) :
    Leads (machine conf) Unaided c fun c' => Reached conf c' ∧ Q c' := by
  obtain ⟨tr, c', hp, hQ⟩ := hl
  exact ⟨tr, c', hp, h.path (hp.mono fun _ _ => Unaided.calm), hQ⟩

/-! ## One section -/

/-- **A section that can run, runs.** -/
theorem step_run {g : Trigger} {x : Input} {net : List Packet} {m : Node} {os : List Output}
    (hi : i ∈ conf.members) (hfetch : c.fetch i g = some (x, net))
    (hm : (c.hosts i).handle x = some (m, os)) :
    (machine conf).step c (.run i g) =
      some ({ hosts := Function.update c.hosts i m.flush
              network := net ++
                os.flatMap (Output.packets i (c.hosts i).boot (c.hosts i).server.peers g) },
        tag i (m.server.effects.map .effect ++ os.map .output)) := by
  have hsent : c.sent i g (m.server.effects.map .effect ++ os.map .output) =
      os.flatMap (Output.packets i (c.hosts i).boot (c.hosts i).server.peers g) := by
    rw [sent, outputs_append, outputs_map_effect, outputs_map_output, List.nil_append]
  show step conf c (.run i g) = _
  rw [step, if_pos hi, hfetch, ← hsent]
  show c.stepNode i (c.sent i g) net (.run x) = _
  rw [stepNode, Node.step, hm]
  rfl

theorem leads_run {g : Trigger} {x : Input} {net : List Packet} {m : Node} {os : List Output}
    (hi : i ∈ conf.members) (hown : g.unaided = true) (hadm : c.Admissible (.run i g))
    (hfetch : c.fetch i g = some (x, net)) (hm : (c.hosts i).handle x = some (m, os)) :
    Leads (machine conf) Unaided c fun c' => c' =
      { hosts := Function.update c.hosts i m.flush
        network := net ++
          os.flatMap (Output.packets i (c.hosts i).boot (c.hosts i).server.peers g) } :=
  .step ⟨hadm, i, g, rfl, hown⟩ (step_run hi hfetch hm)

/-- The outputs of the section are in the trace. -/
theorem exists_path_run {g : Trigger} {x : Input} {net : List Packet} {m : Node}
    {os : List Output} (hi : i ∈ conf.members) (hadm : c.Admissible (.run i g))
    (hfetch : c.fetch i g = some (x, net)) (hm : (c.hosts i).handle x = some (m, os)) :
    ∃ tr c', Path (machine conf) Calm c tr c' ∧
      c'.hosts = Function.update c.hosts i m.flush ∧ ∀ o ∈ os, (i, .output o) ∈ tr :=
  ⟨_, _, .step ⟨hadm, i, g, rfl⟩ (step_run hi hfetch hm), rfl, fun _ ho =>
    mem_tag.mpr ⟨rfl, List.mem_append_right _ (List.mem_map_of_mem ho)⟩⟩

theorem fetch_thread {x : Input} (hx : x.isLocal = true) :
    c.fetch i (.thread x) = some (x, c.network) := by
  rw [fetch, if_pos hx]

theorem fetch_packet {q : Packet} {x : Input} (hq : q ∈ c.network)
    (hx : q.input i (c.hosts i).boot = some x) :
    c.fetch i (.packet q) = some (x, c.network.erase q) := by
  rw [fetch, if_pos hq, hx]
  rfl

/-- The hosts after a section of node `i`. -/
theorem hosts_of_update {n : Node} (h : c'.hosts = Function.update c.hosts i n) :
    c'.hosts i = n ∧ ∀ j, j ≠ i → c'.hosts j = c.hosts j :=
  ⟨by rw [h, Function.update_self], fun j hj => by rw [h, Function.update_of_ne hj]⟩

/-- The log of a node has room for one more entry. -/
def Short (c : Cluster) (i : ℕ) : Prop := (c.hosts i).server.logEntries.length + 1 < 2 ^ 64

/-! ## A request for votes -/

/-- **A node stands for election**, if it does not lead and its last requests are sent. -/
theorem leads_timeout (hi : i ∈ conf.members) (hshort : c.Short i) (hterm : c.term i + 1 < 2 ^ 64)
    (hrole : (c.hosts i).server.role ≠ .leader) (hcamp : (c.hosts i).campaigning = false)
    (hpeers : (c.hosts i).server.peers ≠ []) :
    Leads (machine conf) Unaided c fun c' => c'.hosts = Function.update c.hosts i
      { (c.hosts i).leave (c.hosts i).server.becomeCandidate with campaigning := true } := by
  have hmaj : ¬ (c.hosts i).server.becomeCandidate.majority ≤ 1 := by
    have hpos : 0 < (c.hosts i).server.peers.length := List.length_pos_iff.mpr hpeers
    show ¬ ((c.hosts i).server.peers.length + 1) / 2 + 1 ≤ 1
    omega
  have htimeout : (c.hosts i).server.electionTimeout =
      some (true, (c.hosts i).server.becomeCandidate) := by
    rw [Server.electionTimeout, if_neg hrole]
    exact if_neg hmaj
  have hm : (c.hosts i).handle .electionTimeout = some ({ c.hosts i with
      server := (c.hosts i).server.becomeCandidate, campaigning := true }, []) := by
    rw [Node.handle, if_neg (by simp [hcamp]), htimeout]
    rfl
  refine (leads_run hi rfl ⟨fun _ => hterm, hshort, by simp, by simp⟩ (fetch_thread rfl) hm).mono ?_
  rintro c' rfl
  rfl

/-- It sends its requests. -/
theorem leads_ask (hi : i ∈ conf.members) (hshort : c.Short i)
    (hcamp : (c.hosts i).campaigning = true) (hclean : (c.hosts i).server.effects = []) :
    Leads (machine conf) Unaided c fun c' =>
      c'.hosts = Function.update c.hosts i { c.hosts i with campaigning := false } ∧
      c'.network = c.network ++ (c.hosts i).server.peers.map fun k =>
        .requestVote i (c.hosts i).boot k (c.hosts i).server.requestVoteArgs := by
  have hm : (c.hosts i).handle .sendRequestVotes = some
      ({ c.hosts i with campaigning := false },
        [.requestVotes (c.hosts i).server.requestVoteArgs]) := by
    rw [Node.handle, if_pos hcamp]
  refine (leads_run hi rfl ⟨by simp, hshort, by simp, by simp⟩ (fetch_thread rfl) hm).mono ?_
  rintro c' rfl
  refine ⟨?_, by rw [List.flatMap_singleton]; rfl⟩
  rw [Node.flush_of_clean (n := { c.hosts i with campaigning := false }) hclean]

/-- A member answers a request. -/
theorem leads_vote (hp : p ∈ conf.members) (hshort : c.Short p) {b : ℕ} {args : RequestVoteArgs}
    (hq : .requestVote i b p args ∈ c.network) :
    Leads (machine conf) Unaided c fun c' => c' =
      { hosts := Function.update c.hosts p
          ((c.hosts p).leave ((c.hosts p).server.handleRequestVote args).2)
        network := c.network.erase (.requestVote i b p args) ++
          [.requestVoteReply i b p args.term ((c.hosts p).server.handleRequestVote args).1] } := by
  refine (leads_run hp rfl ⟨by simp, hshort, by simp, by simp⟩
    (fetch_packet hq (x := .requestVote args) (if_pos rfl)) rfl).mono ?_
  rintro c' rfl
  rw [List.flatMap_singleton]
  rfl

/-- The candidate handles the answer. -/
theorem leads_count (hi : i ∈ conf.members) {n : Node} (hn : c.hosts i = n) (hshort : c.Short i)
    {t : ℕ} {reply : RequestVoteReply} (hq : .requestVoteReply i n.boot p t reply ∈ c.network) :
    Leads (machine conf) Unaided c fun c' => c' =
      { hosts := Function.update c.hosts i (n.leave (n.server.handleRequestVoteReply t reply))
        network := c.network.erase (.requestVoteReply i n.boot p t reply) } := by
  subst hn
  refine (leads_run hi rfl ⟨by simp, hshort, by simp, by simp⟩
    (fetch_packet hq (x := .requestVoteReply t reply) (if_pos ⟨rfl, rfl⟩)) rfl).mono ?_
  rintro c' rfl
  rw [List.flatMap_nil, List.append_nil]
  rfl

/-- **A request for a vote, and the answer.**  The other requests stay. -/
theorem leads_ballot (hi : i ∈ conf.members) (hp : p ∈ conf.members) (hpi : p ≠ i)
    (hshort : c.Short i) (hshort' : c.Short p) {args : RequestVoteArgs}
    (hq : .requestVote i (c.hosts i).boot p args ∈ c.network) :
    Leads (machine conf) Unaided c fun c' =>
      c'.hosts = Function.update (Function.update c.hosts p
          ((c.hosts p).leave ((c.hosts p).server.handleRequestVote args).2)) i
        ((c.hosts i).leave ((c.hosts i).server.handleRequestVoteReply args.term
          ((c.hosts p).server.handleRequestVote args).1)) ∧
      ∀ k, k ≠ p → ∀ b args', .requestVote i b k args' ∈ c.network →
        .requestVote i b k args' ∈ c'.network := by
  refine (leads_vote hp hshort' hq).trans ?_
  rintro c₁ rfl
  have hhost : Function.update c.hosts p
      ((c.hosts p).leave ((c.hosts p).server.handleRequestVote args).2) i = c.hosts i :=
    Function.update_of_ne hpi.symm ..
  refine (leads_count hi hhost (by simpa only [Short, hhost] using hshort)
    (List.mem_append_right _ List.mem_cons_self)).mono ?_
  rintro c₂ rfl
  refine ⟨rfl, fun k hk b args' hmem => ?_⟩
  refine (List.mem_erase_of_ne (by simp)).mpr (List.mem_append_left _ ?_)
  exact (List.mem_erase_of_ne (by simp [hk])).mpr hmem

/-! ## Entries -/

/-- A leader sends its entries. -/
theorem leads_replicate (hi : i ∈ conf.members) (hshort : c.Short i)
    (hclean : (c.hosts i).server.effects = []) (hp : p ∈ (c.hosts i).server.peers)
    {args : AppendEntriesArgs} (hargs : (c.hosts i).server.appendEntriesArgs p = some args) :
    Leads (machine conf) Unaided c fun c' => c' =
      { c with network := c.network ++ [.appendEntries i (c.hosts i).boot p args] } := by
  have hm : (c.hosts i).handle (.replicate p) = some (c.hosts i, [.appendEntries p args]) := by
    rw [Node.handle, if_pos hp, hargs]
    rfl
  refine (leads_run hi rfl ⟨by simp, hshort, by simp, by simp⟩ (fetch_thread rfl) hm).mono ?_
  rintro c' rfl
  rw [List.flatMap_singleton, Node.flush_of_clean hclean, Function.update_eq_self]
  rfl

/-- A member takes them, if they fit into a message. -/
theorem leads_receive (hp : p ∈ conf.members) (hshort : c.Short p) {b : ℕ}
    {args : AppendEntriesArgs} (hq : .appendEntries i b p args ∈ c.network)
    (hlen : (serializeAppendEntriesArgs args).length < 2 ^ 32)
    (hargs : receiveAppendEntries args = some args) {r : AppendEntriesReply × Server}
    (hr : (c.hosts p).server.handleAppendEntries args = some r) :
    Leads (machine conf) Unaided c fun c' => c' =
      { hosts := Function.update c.hosts p ((c.hosts p).leave r.2)
        network := c.network.erase (.appendEntries i b p args) ++
          [.appendEntriesReply i b p args r.1] } := by
  have hx : (Packet.appendEntries i b p args).input p (c.hosts p).boot =
      some (.appendEntries args) := by
    rw [Packet.input, if_pos rfl, hargs]
    rfl
  have hm : (c.hosts p).handle (.appendEntries args) =
      some ({ c.hosts p with server := r.2 }, [.appendEntriesReply r.1]) := by
    rw [Node.handle, hr]
    rfl
  have hadm : c.Admissible (.run p (.packet (.appendEntries i b p args))) := by
    refine ⟨by simp, hshort, by simp, fun caller b' callee args' heq => ?_⟩
    obtain ⟨-, -, -, rfl⟩ := Packet.appendEntries.inj (Trigger.packet.inj heq)
    exact hlen
  refine (leads_run hp rfl hadm (fetch_packet hq hx) hm).mono ?_
  rintro c' rfl
  rw [List.flatMap_singleton]
  rfl

/-- The leader handles the answer. -/
theorem leads_conclude (hi : i ∈ conf.members) {n : Node} (hn : c.hosts i = n)
    (hshort : c.Short i) {args : AppendEntriesArgs} {reply : AppendEntriesReply}
    (hq : .appendEntriesReply i n.boot p args reply ∈ c.network) :
    Leads (machine conf) Unaided c fun c' => c' =
      { hosts := Function.update c.hosts i
          (n.leave (n.server.handleAppendEntriesReply p args reply))
        network := c.network.erase (.appendEntriesReply i n.boot p args reply) } := by
  subst hn
  refine (leads_run hi rfl ⟨by simp, hshort, by simp, by simp⟩
    (fetch_packet hq (x := .appendEntriesReply p args reply) (if_pos ⟨rfl, rfl⟩)) rfl).mono ?_
  rintro c' rfl
  rw [List.flatMap_nil, List.append_nil]
  rfl

/-- **A leader's entries, and the answer.** -/
theorem Reached.exchange (h : Reached conf c) (hi : i ∈ conf.members) (hp : p ∈ conf.peers i)
    (hshort : c.Short i) (hshort' : c.Short p) {args : AppendEntriesArgs}
    (hargs : (c.hosts i).server.appendEntriesArgs p = some args)
    (hlen : (serializeAppendEntriesArgs args).length < 2 ^ 32) :
    ∃ r, (c.hosts p).server.handleAppendEntries args = some r ∧
      Leads (machine conf) Unaided c fun c' => Reached conf c' ∧
        c'.hosts = Function.update (Function.update c.hosts p ((c.hosts p).leave r.2)) i
          ((c.hosts i).leave ((c.hosts i).server.handleAppendEntriesReply p args r.1)) := by
  obtain ⟨tr, hrun⟩ := h
  obtain ⟨a, ha⟩ := refined hrun
  obtain ⟨hpmem, hpi⟩ := (conf.mem_peers i hi p).mp hp
  have hpeer : p ∈ (c.hosts i).server.peers := (ha.refines hi).peers ▸ hp
  obtain ⟨hb, hwf⟩ := ha.encodes_sent hi hpeer hargs hshort
  have hreceive := receiveAppendEntries_of_wellFormed hb hlen hwf
  have hindexed := ha.sim.indexed_log (ha.sim.logInv.log_matched i)
  rw [← (ha.refines hi).log] at hindexed
  have hindex : ∀ e ∈ args.entries, e.index ≠ 0 := by
    intro e he
    rw [Server.appendEntriesArgs] at hargs
    split at hargs
    · exact absurd hargs (by simp)
    rw [← Option.some.inj hargs] at he
    obtain ⟨k, hk⟩ := List.mem_iff_getElem?.mp (List.mem_of_mem_drop he)
    rw [hindexed k e hk]
    exact Nat.succ_ne_zero k
  obtain ⟨r, hr⟩ := Option.isSome_iff_exists.mp
    (Server.handleAppendEntries_isSome hindex (c.hosts p).server)
  refine ⟨r, hr, Reached.keep ⟨tr, hrun⟩ ?_⟩
  refine (leads_replicate hi hshort (ha.mirrored i hi).clean hpeer hargs).trans ?_
  rintro c₁ rfl
  refine (leads_receive (c := { c with network := c.network ++
    [.appendEntries i (c.hosts i).boot p args] }) hpmem hshort'
    (List.mem_append_right _ List.mem_cons_self) hlen hreceive hr).trans ?_
  rintro c₂ rfl
  have hhost : Function.update c.hosts p ((c.hosts p).leave r.2) i = c.hosts i :=
    Function.update_of_ne hpi.symm ..
  refine (leads_conclude hi hhost (by simpa only [Short, hhost] using hshort)
    (List.mem_append_right _ List.mem_cons_self)).mono ?_
  rintro c₃ rfl
  rfl

end Cluster

end RaftConsensus
