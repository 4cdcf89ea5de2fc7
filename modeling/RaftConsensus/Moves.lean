import RaftConsensus.Recovery

/-!
# The steps of a cluster, taken apart

`Moves` says what each action does to a cluster, once and for all: every invariant of runs
is proved by cases on it.  Below it are the traces of a single member, the quorums, and the
assumption under which elections are safe.
-/

namespace RaftConsensus

/-! ## Quorums -/

namespace Config

variable (conf : Config)

/-- More than half of the members. -/
def Majority (S : Finset ℕ) : Prop := S ⊆ conf.members ∧ conf.members.card / 2 + 1 ≤ S.card

theorem length_peers {i : ℕ} (hi : i ∈ conf.members) :
    (conf.peers i).length + 1 = conf.members.card := by
  have hset : (conf.peers i).toFinset = conf.members.erase i := by
    ext j
    rw [List.mem_toFinset, conf.mem_peers i hi, Finset.mem_erase]
    exact and_comm
  rw [← List.toFinset_card_of_nodup (conf.nodup i hi), hset]
  exact Finset.card_erase_add_one hi

/-- Any two majorities share a member. -/
theorem majority_inter {S T : Finset ℕ} (hS : conf.Majority S) (hT : conf.Majority T) :
    ∃ v, v ∈ S ∧ v ∈ T := by
  obtain ⟨v, hv⟩ := Finset.inter_nonempty_of_card_lt_card_add_card hS.1 hT.1
    (by have := hS.2; have := hT.2; omega)
  exact ⟨v, Finset.mem_inter.mp hv⟩

/-- Ids have 64 bits and are not zero, so there are fewer than `2 ^ 64` members. -/
theorem card_lt : conf.members.card < 2 ^ 64 := by
  have hsub : conf.members ⊆ (Finset.range (2 ^ 64)).erase 0 := by
    intro i hi
    exact Finset.mem_erase.mpr ⟨conf.ne_zero i hi, Finset.mem_range.mpr (conf.lt i hi)⟩
  have hcard := Finset.card_le_card hsub
  rw [Finset.card_erase_of_mem (Finset.mem_range.mpr (Nat.two_pow_pos 64)),
    Finset.card_range] at hcard
  omega

end Config

namespace Cluster

/-! ## Steps -/

variable {conf : Config} {c c' : Cluster}

/-- **What an action does.** -/
inductive Moves (conf : Config) (c : Cluster) :
    Action → Cluster → List (ℕ × Node.Event) → Prop
  | run (i : ℕ) (g : Trigger) (x : Input) (net : List Packet) (m : Node) (os : List Output)
      (hi : i ∈ conf.members) (hfetch : c.fetch i g = some (x, net))
      (hm : (c.hosts i).handle x = some (m, os)) :
      Moves conf c (.run i g)
        { hosts := Function.update c.hosts i m.flush
          network := net ++
            os.flatMap (Output.packets i (c.hosts i).boot (c.hosts i).server.peers g) }
        (tag i (m.server.effects.map .effect ++ os.map .output))
  | crash (i : ℕ) (retries : List CrashPoint) (hi : i ∈ conf.members) :
      Moves conf c (.crash i retries)
        { hosts := Function.update c.hosts i
            ((c.hosts i).restart retries (c.hosts i).files).1
          network := c.network }
        (tag i (((c.hosts i).restart retries (c.hosts i).files).2.map .effect))
  | crashIn (i : ℕ) (g : Trigger) (p : CrashPoint) (retries : List CrashPoint) (x : Input)
      (net : List Packet) (m : Node) (os : List Output) (hi : i ∈ conf.members)
      (hfetch : c.fetch i g = some (x, net)) (hm : (c.hosts i).handle x = some (m, os)) :
      Moves conf c (.crashIn i g p retries)
        { hosts := Function.update c.hosts i
            ((c.hosts i).restart retries (crashFiles m.server.effects p (c.hosts i).files)).1
          network := net }
        (tag i ((m.server.effects.take p.done ++
          ((c.hosts i).restart retries
            (crashFiles m.server.effects p (c.hosts i).files)).2).map .effect))
  | lose (p : Packet) (hp : p ∈ c.network) :
      Moves conf c (.lose p) { c with network := c.network.erase p } []

theorem outputs_append (es es' : List Node.Event) :
    outputs (es ++ es') = outputs es ++ outputs es' := List.filterMap_append

theorem outputs_map_effect (es : List Effect) : outputs (es.map .effect) = [] := by
  rw [outputs, List.filterMap_map]
  exact List.filterMap_eq_nil_iff.mpr fun _ _ => rfl

theorem outputs_map_output (os : List Output) : outputs (os.map .output) = os := by
  rw [outputs, List.filterMap_map]
  exact List.filterMap_some

theorem step_moves {a : Action} {evs : List (ℕ × Node.Event)}
    (h : step conf c a = some (c', evs)) : Moves conf c a c' evs := by
  rcases a with ⟨i, g⟩ | ⟨i, retries⟩ | ⟨i, g, p, retries⟩ | p <;> rw [step] at h <;> split at h
  · next hi =>
    rcases hf : c.fetch i g with _ | ⟨x, net⟩ <;> rw [hf] at h
    · exact absurd h (by simp)
    obtain ⟨r, hr, heq⟩ := Option.map_eq_some_iff.mp h
    obtain ⟨⟨m, os⟩, hm, rfl⟩ := Option.map_eq_some_iff.mp hr
    obtain ⟨rfl, rfl⟩ := Prod.mk.inj heq
    have hsent : c.sent i g (m.server.effects.map .effect ++ os.map .output) =
        os.flatMap (Output.packets i (c.hosts i).boot (c.hosts i).server.peers g) := by
      rw [sent, outputs_append, outputs_map_effect, outputs_map_output, List.nil_append]
    have := Moves.run i g x net m os hi hf hm
    rw [← hsent] at this
    exact this
  · exact absurd h (by simp)
  · next hi =>
    obtain ⟨rfl, rfl⟩ := Prod.mk.inj (Option.some.inj h)
    have := Moves.crash (c := c) i retries hi
    rw [← List.append_nil c.network] at this
    exact this
  · exact absurd h (by simp)
  · next hi =>
    rcases hf : c.fetch i g with _ | ⟨x, net⟩ <;> rw [hf] at h
    · exact absurd h (by simp)
    obtain ⟨r, hr, heq⟩ := Option.map_eq_some_iff.mp h
    obtain ⟨⟨m, os⟩, hm, rfl⟩ := Option.map_eq_some_iff.mp hr
    obtain ⟨rfl, rfl⟩ := Prod.mk.inj heq
    have := Moves.crashIn i g p retries x net m os hi hf hm
    rw [← List.append_nil net] at this
    exact this
  · exact absurd h (by simp)
  · next hp =>
    obtain ⟨rfl, rfl⟩ := Prod.mk.inj (Option.some.inj h)
    exact .lose p hp
  · exact absurd h (by simp)

/-- What holds of the members when one of them has moved. -/
theorem forall_mem_update {hosts : ℕ → Node} {i : ℕ} {n : Node} {Q : ℕ → Node → Prop}
    (hself : Q i n) (hother : ∀ j ∈ conf.members, j ≠ i → Q j (hosts j)) :
    ∀ j ∈ conf.members, Q j (Function.update hosts i n j) := by
  intro j hj
  by_cases hji : j = i
  · rw [hji, Function.update_self]
    exact hself
  · rw [Function.update_of_ne hji]
    exact hother j hj hji

/-- What a message is to the node that it is meant for. -/
inductive Delivers (i boot : ℕ) : Packet → Input → Prop
  | requestVote (caller b : ℕ) (args : RequestVoteArgs) :
      Delivers i boot (.requestVote caller b i args) (.requestVote args)
  | requestVoteReply (callee t : ℕ) (reply : RequestVoteReply) :
      Delivers i boot (.requestVoteReply i boot callee t reply) (.requestVoteReply t reply)
  | appendEntries (caller b : ℕ) (args args' : AppendEntriesArgs)
      (hargs : receiveAppendEntries args = some args') :
      Delivers i boot (.appendEntries caller b i args) (.appendEntries args')
  | appendEntriesReply (callee : ℕ) (args : AppendEntriesArgs) (reply : AppendEntriesReply) :
      Delivers i boot (.appendEntriesReply i boot callee args reply)
        (.appendEntriesReply callee args reply)

theorem delivers_of_input {p : Packet} {i boot : ℕ} {x : Input} (h : p.input i boot = some x) :
    Delivers i boot p x := by
  rcases p with ⟨j, b, k, args⟩ | ⟨j, b, k, t, reply⟩ | ⟨j, b, k, args⟩ | ⟨j, b, k, args, reply⟩ <;>
    rw [Packet.input] at h <;> split at h
  · next hk =>
    rw [hk, ← Option.some.inj h]
    exact .requestVote j b args
  · exact absurd h (by simp)
  · next hj =>
    rw [hj.1, hj.2, ← Option.some.inj h]
    exact .requestVoteReply k t reply
  · exact absurd h (by simp)
  · next hk =>
    obtain ⟨args', hargs, rfl⟩ := Option.map_eq_some_iff.mp h
    rw [hk]
    exact .appendEntries j b args args' hargs
  · exact absurd h (by simp)
  · next hj =>
    rw [hj.1, hj.2, ← Option.some.inj h]
    exact .appendEntriesReply k args reply
  · exact absurd h (by simp)

/-- Where the input of a section comes from. -/
theorem fetch_eq_some {i : ℕ} {g : Trigger} {x : Input} {net : List Packet}
    (h : c.fetch i g = some (x, net)) :
    (g = .thread x ∧ x.isLocal = true ∧ net = c.network) ∨
      ∃ p, g = .packet p ∧ p ∈ c.network ∧ Delivers i (c.hosts i).boot p x ∧
        net = c.network.erase p := by
  rcases g with y | p <;> rw [fetch] at h <;> split at h
  · next hloc =>
    obtain ⟨rfl, rfl⟩ := Prod.mk.inj (Option.some.inj h)
    exact Or.inl ⟨rfl, hloc, rfl⟩
  · exact absurd h (by simp)
  · next hp =>
    obtain ⟨y, hy, heq⟩ := Option.map_eq_some_iff.mp h
    obtain ⟨rfl, rfl⟩ := Prod.mk.inj heq
    exact Or.inr ⟨p, rfl, hp, delivers_of_input hy, rfl⟩
  · exact absurd h (by simp)

/-- What does not come from a message comes from a thread of the node. -/
theorem fetch_of_isLocal {i : ℕ} {g : Trigger} {x : Input} {net : List Packet}
    (h : c.fetch i g = some (x, net)) (hx : x.isLocal = true) : g = .thread x := by
  rcases fetch_eq_some h with ⟨rfl, -, -⟩ | ⟨p, -, -, hdel, -⟩
  · rfl
  · cases hdel <;> exact absurd hx (by simp [Input.isLocal])

/-- What is left in the network was there. -/
theorem fetch_subset {i : ℕ} {g : Trigger} {x : Input} {net : List Packet}
    (h : c.fetch i g = some (x, net)) : net ⊆ c.network := by
  rcases fetch_eq_some h with ⟨-, -, rfl⟩ | ⟨p, -, -, -, rfl⟩
  · exact List.Subset.refl _
  · exact List.erase_subset

/-- **What a section of node `i` sends.** -/
inductive Sends (i : ℕ) (n : Node) (g : Trigger) (x : Input) : List Packet → Prop
  | none : Sends i n g x []
  | voteReply (caller b callee : ℕ) (args : RequestVoteArgs)
      (hg : g = .packet (.requestVote caller b callee args)) (hx : x = .requestVote args) :
      Sends i n g x
        [.requestVoteReply caller b i args.term (n.server.handleRequestVote args).1]
  | appendReply (caller b callee : ℕ) (args args' : AppendEntriesArgs)
      (r : AppendEntriesReply × Server) (hg : g = .packet (.appendEntries caller b callee args))
      (hx : x = .appendEntries args') (hr : n.server.handleAppendEntries args' = some r) :
      Sends i n g x [.appendEntriesReply caller b i args r.1]
  | votes (hg : g = .thread x) (hx : x = .sendRequestVotes) (hcamp : n.campaigning = true) :
      Sends i n g x
        (n.server.peers.map fun k => .requestVote i n.boot k n.server.requestVoteArgs)
  | append (peer : ℕ) (args : AppendEntriesArgs) (hx : x = .replicate peer)
      (hpeer : peer ∈ n.server.peers) (hargs : n.server.appendEntriesArgs peer = some args) :
      Sends i n g x [.appendEntries i n.boot peer args]

theorem handle_sends {i : ℕ} {g : Trigger} {x : Input} {net : List Packet} {m : Node}
    {os : List Output} (hfetch : c.fetch i g = some (x, net))
    (hm : (c.hosts i).handle x = some (m, os)) :
    Sends i (c.hosts i) g x
      (os.flatMap (Output.packets i (c.hosts i).boot (c.hosts i).server.peers g)) := by
  cases Node.handle_section hm with
  | requestVote args =>
    rcases fetch_eq_some hfetch with ⟨-, hloc, -⟩ | ⟨p, rfl, -, hx, -⟩
    · exact absurd hloc (by simp [Input.isLocal])
    cases hx with
    | requestVote caller b =>
      rw [List.flatMap_singleton]
      exact .voteReply caller b i args rfl rfl
  | appendEntries args' r hr =>
    rcases fetch_eq_some hfetch with ⟨-, hloc, -⟩ | ⟨p, rfl, -, hx, -⟩
    · exact absurd hloc (by simp [Input.isLocal])
    cases hx with
    | appendEntries caller b args _ hargs =>
      rw [List.flatMap_singleton]
      exact .appendReply caller b i args args' r rfl rfl hr
  | sendRequestVotes hcamp =>
    rw [List.flatMap_singleton]
    exact .votes (fetch_of_isLocal hfetch rfl) rfl hcamp
  | replicate peer args hpeer hargs =>
    rw [List.flatMap_singleton]
    exact .append peer args rfl hpeer hargs
  | _ => exact .none

/-! ## The trace of one member -/

/-- The effects of node `i`. -/
def effects (i : ℕ) (tr : List (ℕ × Node.Event)) : List Effect :=
  tr.filterMap fun
    | (j, .effect e) => if j = i then some e else none
    | (_, .output _) => none

theorem effects_append (i : ℕ) (tr tr' : List (ℕ × Node.Event)) :
    effects i (tr ++ tr') = effects i tr ++ effects i tr' := List.filterMap_append

theorem mem_effects {i : ℕ} {tr : List (ℕ × Node.Event)} {e : Effect} :
    e ∈ effects i tr ↔ (i, .effect e) ∈ tr := by
  rw [effects, List.mem_filterMap]
  constructor
  · rintro ⟨⟨j, x | x⟩, hx, heq⟩
    · dsimp only at heq
      split at heq
      · next hj => rwa [← hj, ← Option.some.inj heq]
      · exact absurd heq (by simp)
    · exact absurd heq (by simp)
  · intro h
    exact ⟨_, h, by simp⟩

theorem effects_tag_self (i : ℕ) (evs : List Node.Event) :
    effects i (tag i evs) = Node.effects evs := by
  rw [effects, tag, List.filterMap_map, Node.effects]
  refine List.filterMap_congr fun x _ => ?_
  rcases x with e | o
  · simp
  · rfl

theorem effects_tag_of_ne {i j : ℕ} (h : i ≠ j) (evs : List Node.Event) :
    effects j (tag i evs) = [] := by
  rw [effects, tag, List.filterMap_map]
  refine List.filterMap_eq_nil_iff.mpr fun x _ => ?_
  rcases x with e | o
  · simp [h]
  · rfl

/-- Events of node `i` only. -/
theorem mem_tag {i j : ℕ} {e : Node.Event} {evs : List Node.Event} :
    (j, e) ∈ tag i evs ↔ j = i ∧ e ∈ evs := by
  rw [tag, List.mem_map]
  constructor
  · rintro ⟨x, hx, heq⟩
    obtain ⟨rfl, rfl⟩ := Prod.mk.inj heq
    exact ⟨rfl, hx⟩
  · rintro ⟨rfl, h⟩
    exact ⟨e, h, rfl⟩

/-! ## Assumptions -/

/-- What is assumed of a step where elections are concerned: no term wraps around, and a crash
leaves completed writes of metadata intact. -/
def Intact (c : Cluster) : Action → Prop
  | .run i g => g = .thread .electionTimeout →
      (c.hosts i).server.metadata.currentTerm + 1 < 2 ^ 64
  | .crash i retries => Node.IntactStarts (c.hosts i).server.nodeId (c.hosts i).server.peers
      retries (c.hosts i).files
  | .crashIn i g p retries =>
      (g = .thread .electionTimeout →
        (c.hosts i).server.metadata.currentTerm + 1 < 2 ^ 64) ∧
      ∀ x net r, c.fetch i g = some (x, net) → (c.hosts i).handle x = some r →
        ¬ TornAt r.1.server.effects p ∧
          Node.IntactStarts (c.hosts i).server.nodeId (c.hosts i).server.peers retries
            (crashFiles r.1.server.effects p (c.hosts i).files)
  | .lose _ => True

end Cluster

end RaftConsensus
