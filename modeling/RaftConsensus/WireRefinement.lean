import RaftConsensus.Rounds
import RaftConsensus.Wire

/-!
# The streams carry the messages

A cluster on streams of bytes does what a cluster of messages can do.  An RPC stands for the message
that it still has to deliver: its request until the callee has handled it, then its reply until the
caller has read it.  A stream that ends inside a frame is a message that is lost, and the frame of a
message can be read as no other message.

* `Carries`: every RPC has its message in the network.
* `refines_messages`: every run on streams is a run of messages, with the same nodes and the same trace.  So
  what is proved of the runs of `Cluster.machine` is true of the bytes as well.
-/

namespace RaftConsensus

/-! ## Frames that arrive in part -/

/-- **A part of a frame is read as this frame or not at all.** -/
theorem recvRpc_of_isPrefix {calls : List (Recv UInt8)} {rpc : UInt8 × Bytes}
    (hrpc : frameCode.Valid rpc) (h : arrived retried calls <+: frame rpc) :
    (¬ frame rpc <+: arrived retried calls ∧ recvRpc calls = none) ∨
      frame rpc <+: arrived retried calls ∧ ∃ calls', recvRpc calls = some (rpc, calls') := by
  by_cases hall : frame rpc <+: arrived retried calls
  · obtain ⟨rest, hrest⟩ := hall
    obtain ⟨calls', hrecv, -⟩ := recvRpc_frame hrpc hrest.symm
    exact Or.inr ⟨⟨rest, hrest⟩, calls', hrecv⟩
  · refine Or.inl ⟨hall, recvRpc_eq_none fun rpc' hrpc' hpre => hall ?_⟩
    obtain rfl := frameCode.word_unique hrpc' hrpc (hpre.trans h) List.prefix_rfl
    exact hpre

namespace Rpc

/-- The message that asks. -/
def request (r : Rpc) : Packet :=
  match r.args with
  | .requestVote args => .requestVote r.caller r.boot r.callee args
  | .appendEntries args => .appendEntries r.caller r.boot r.callee args

/-- The messages that answer, with their bodies. -/
inductive Replies (r : Rpc) : Packet → RpcType → Bytes → Prop
  | vote (args : RequestVoteArgs) (reply : RequestVoteReply) (hargs : r.args = .requestVote args) :
      Replies r (.requestVoteReply r.caller r.boot r.callee args.term reply) .requestVoteReply
        (serializeRequestVoteReply reply)
  | append (args : AppendEntriesArgs) (reply : AppendEntriesReply)
      (hargs : r.args = .appendEntries args) :
      Replies r (.appendEntriesReply r.caller r.boot r.callee args reply) .appendEntriesReply
        (serializeAppendEntriesReply reply)

/-- **The message that an RPC stands for.** -/
def Holds (r : Rpc) (ps : List Packet) : Prop :=
  match r.phase with
  | .ready => ps = [r.request]
  | .asked _ bytes _ =>
    ps = [r.request] ∧ ∃ sends, bytes = (sendRpc sends r.args.type r.args.body).2.1
  | .answered bytes =>
    (bytes = [] ∧ ps = []) ∨
      ∃ p type body sends, r.Replies p type body ∧ ps = [p] ∧ bytes = (sendRpc sends type body).2.1
  | .over => ps = []

variable {r : Rpc} {recvs : List (Recv UInt8)} {p : Packet} {type : RpcType} {body : Bytes}

/-- **A request is read as it was sent, or not at all.** -/
theorem requestRead_eq (hvote : ∀ args, r.args = .requestVote args → args.Bounded)
    (hlen : r.args.body.length < 2 ^ 32)
    (h : arrived retried recvs <+: frame (r.args.type.code, r.args.body)) (boot : ℕ) :
    (¬ frame (r.args.type.code, r.args.body) <+: arrived retried recvs ∧
        requestRead recvs = some none) ∨
      frame (r.args.type.code, r.args.body) <+: arrived retried recvs ∧
        requestRead recvs = (r.request.input r.callee boot).map some := by
  have hvalid : frameCode.Valid (r.args.type.code, r.args.body) := hlen
  rcases recvRpc_of_isPrefix hvalid h with ⟨hpart, hnone⟩ | ⟨hall, recvs', hsome⟩
  · exact Or.inl ⟨hpart, by rw [requestRead, hnone]⟩
  · refine Or.inr ⟨hall, ?_⟩
    rw [requestRead, hsome]
    dsimp only
    rw [RpcType.ofCode?_code, request]
    cases hargs : r.args with
    | requestVote args =>
      rw [RpcArgs.type, RpcArgs.body, deserializeRequestVoteArgs_serialize (hvote args hargs),
        Packet.input, if_pos rfl]
      rfl
    | appendEntries args =>
      rw [hargs, RpcArgs.body] at hlen
      rw [RpcArgs.type, RpcArgs.body, Packet.input, if_pos rfl, receiveAppendEntries,
        receivedBody_eq_self hlen, Option.map_map]
      rfl

/-- A reply is for the thread that has asked. -/
theorem Replies.exists_input (h : r.Replies p type body) :
    ∃ x, p.input r.caller r.boot = some x ∧ (∀ args, x ≠ .requestVote args) ∧
      (∀ args, x ≠ .appendEntries args) ∧
      ∀ caller b callee args, p ≠ .appendEntries caller b callee args := by
  cases h with
  | vote => exact ⟨_, if_pos ⟨rfl, rfl⟩, by simp, by simp, by simp⟩
  | append => exact ⟨_, if_pos ⟨rfl, rfl⟩, by simp, by simp, by simp⟩

theorem Replies.setPhase (h : r.Replies p type body) (phase : Phase) :
    Replies { r with phase := phase } p type body := by
  cases h with
  | vote args reply hargs => exact .vote args reply hargs
  | append args reply hargs => exact .append args reply hargs

theorem Replies.length_lt (h : r.Replies p type body) : body.length < 2 ^ 32 := by
  cases h with
  | vote _ reply => exact (length_serializeRequestVoteReply reply).trans_lt (by decide)
  | append _ reply => exact (length_serializeAppendEntriesReply reply).trans_lt (by decide)

/-- **A reply is read as it was sent, or not at all.** -/
theorem reading_eq (hreply : r.Replies p type body) {s : Server}
    (hterm : ∀ x ∈ p.input r.caller r.boot, x.Bounded s)
    (h : arrived retried recvs <+: frame (type.code, body)) :
    r.reading recvs = none ∨ r.reading recvs = p.input r.caller r.boot := by
  cases hreply with
  | vote args reply hargs =>
    have hlen := length_serializeRequestVoteReply reply
    have hvalid : frameCode.Valid
        (RpcType.requestVoteReply.code, serializeRequestVoteReply reply) :=
      hlen.trans_lt (by decide)
    have hin : Packet.input r.caller r.boot
        (.requestVoteReply r.caller r.boot r.callee args.term reply) =
          some (.requestVoteReply args.term reply) := if_pos ⟨rfl, rfl⟩
    have hbound : reply.term < 2 ^ 64 := hterm _ hin
    rcases recvRpc_of_isPrefix hvalid h with ⟨-, hnone⟩ | ⟨-, recvs', hsome⟩
    · left
      rw [reading, hnone]
    · right
      rw [reading, hsome, hin, hargs]
      dsimp only
      rw [if_neg (by simp [hlen]), deserializeRequestVoteReply_serialize hbound]
      rfl
  | append args reply hargs =>
    have hlen := length_serializeAppendEntriesReply reply
    have hvalid : frameCode.Valid
        (RpcType.appendEntriesReply.code, serializeAppendEntriesReply reply) :=
      hlen.trans_lt (by decide)
    have hin : Packet.input r.caller r.boot
        (.appendEntriesReply r.caller r.boot r.callee args reply) =
          some (.appendEntriesReply r.callee args reply) := if_pos ⟨rfl, rfl⟩
    have hbound : reply.term < 2 ^ 64 := hterm _ hin
    rcases recvRpc_of_isPrefix hvalid h with ⟨-, hnone⟩ | ⟨-, recvs', hsome⟩
    · left
      rw [reading, hnone]
    · right
      rw [reading, hsome, hin, hargs]
      dsimp only
      rw [if_neg (by simp [hlen]), deserializeAppendEntriesReply_serialize hbound]
      rfl

/-- Nothing can be read where nothing arrives. -/
theorem reading_eq_none (h : arrived retried recvs = []) : r.reading recvs = none := by
  have hnone : recvRpc recvs = none := recvRpc_eq_none fun rpc hrpc hpre => by
    rw [h] at hpre
    exact frameCode.word_ne_nil hrpc (List.prefix_nil.mp hpre)
  rw [reading, hnone]

/-! ## The messages of all RPCs -/

/-- The messages that RPCs stand for, one RPC after the other. -/
inductive Carried : List Rpc → List Packet → Prop
  | nil : Carried [] []
  | cons {r : Rpc} {rs : List Rpc} {ps qs : List Packet} (h : r.Holds ps) (hs : Carried rs qs) :
      Carried (r :: rs) (ps ++ qs)

variable {rs rs' : List Rpc} {ps qs : List Packet}

theorem Carried.append (h : Carried rs ps) (h' : Carried rs' qs) :
    Carried (rs ++ rs') (ps ++ qs) := by
  induction h with
  | nil => exact h'
  | cons hr _ ih =>
    rw [List.cons_append, List.append_assoc]
    exact .cons hr ih

/-- RPCs that have just been started. -/
theorem carried_ready (h : ∀ r ∈ rs, r.phase = .ready) : Carried rs (rs.map request) := by
  induction rs with
  | nil => exact .nil
  | cons r rs ih =>
    have hr : r.Holds [r.request] := by
      rw [Holds, h r List.mem_cons_self]
    exact .cons hr (ih fun r' hr' => h r' (List.mem_cons_of_mem r hr'))

/-- **One RPC goes on**, and the others stand for what they have stood for. -/
theorem Carried.set (h : Carried rs ps) {n : ℕ} (hn : rs[n]? = some r) :
    ∃ q rest, r.Holds q ∧ ps.Perm (q ++ rest) ∧ ∀ r' q', r'.Holds q' →
      ∃ ps', Carried (rs.set n r') ps' ∧ ps'.Perm (q' ++ rest) := by
  induction h generalizing n with
  | nil => exact absurd hn (by simp)
  | @cons r₀ rs ps qs hr hs ih =>
    cases n with
    | zero =>
      obtain rfl := Option.some.inj hn
      exact ⟨ps, qs, hr, List.Perm.refl _,
        fun r' q' hr' => ⟨q' ++ qs, .cons hr' hs, List.Perm.refl _⟩⟩
    | succ n =>
      obtain ⟨q, rest, hq, hperm, hset⟩ := ih hn
      refine ⟨q, ps ++ rest, hq, ?_, fun r' q' hr' => ?_⟩
      · exact (hperm.append_left ps).trans (List.perm_append_comm_assoc _ _ _)
      · obtain ⟨ps', hps', hperm'⟩ := hset r' q' hr'
        exact ⟨ps ++ ps', .cons hr hps',
          (hperm'.append_left ps).trans (List.perm_append_comm_assoc _ _ _)⟩

end Rpc

/-! ## What a section starts -/

/-- Messages that are no replies are the requests of the RPCs that are started. -/
theorem packets_eq_requests {os : List Output} (h : ∀ o ∈ os, o.reply? = none) (i boot : ℕ)
    (peers : List ℕ) (g : Trigger) :
    os.flatMap (Output.packets i boot peers g) =
      (os.flatMap (Output.rpcs i boot peers)).map Rpc.request := by
  rw [List.map_flatMap]
  refine List.flatMap_congr fun o ho => ?_
  have hreply := h o ho
  cases o with
  | requestVoteReply => exact absurd hreply (by simp [Output.reply?])
  | appendEntriesReply => exact absurd hreply (by simp [Output.reply?])
  | requestVotes args =>
    rw [Output.packets, Output.rpcs, List.map_map]
    rfl
  | _ => rfl

/-- RPCs are started without a connection. -/
theorem ready_of_mem_rpcs {os : List Output} {i boot : ℕ} {peers : List ℕ} {r : Rpc}
    (hr : r ∈ os.flatMap (Output.rpcs i boot peers)) : r.phase = .ready := by
  obtain ⟨o, -, hr⟩ := List.mem_flatMap.mp hr
  cases o with
  | requestVotes args =>
    obtain ⟨p, -, rfl⟩ := List.mem_map.mp hr
    rfl
  | appendEntries peer args =>
    obtain rfl := List.mem_singleton.mp hr
    rfl
  | _ => exact absurd hr List.not_mem_nil

/-- Only requests are replied to. -/
theorem Node.reply?_eq_none {n m : Node} {x : Input} {os : List Output}
    (h : n.handle x = some (m, os)) (hvote : ∀ args, x ≠ .requestVote args)
    (happend : ∀ args, x ≠ .appendEntries args) : ∀ o ∈ os, o.reply? = none := by
  intro o ho
  cases handle_section h with
  | requestVote args => exact absurd rfl (hvote args)
  | appendEntries args => exact absurd rfl (happend args)
  | requestVoteReply | appendEntriesReply | contactFailed | electionTimeout =>
    exact absurd ho List.not_mem_nil
  | sendRequestVotes | replicate | refused | proposed | wake =>
    obtain rfl := List.mem_singleton.mp ho
    rfl
  | atOnce =>
    rcases List.mem_pair.mp ho with rfl | rfl <;> rfl

namespace Wire

variable {conf : Config} {w w' : Wire} {c : Cluster} {tr evs : List (ℕ × Node.Event)}

/-- **Every RPC has its message in the network**, and the nodes are the same. -/
structure Carries (w : Wire) (c : Cluster) : Prop where
  hosts : c.hosts = w.hosts
  messages : ∃ ps, Rpc.Carried w.rpcs ps ∧ ps.Subperm c.network

/-- What a section is on the wire. -/
theorem runSection_eq_some {i : ℕ} {x : Input} {es : List Node.Event}
    (h : w.runSection i x = some (w', es)) : ∃ m os, (w.hosts i).handle x = some (m, os) ∧
      w' = ⟨Function.update w.hosts i m.flush, w.rpcs ++
        os.flatMap (Output.rpcs i (w.hosts i).boot (w.hosts i).server.peers)⟩ ∧
      es = m.server.effects.map .effect ++ os.map .output := by
  obtain ⟨r, hr, heq⟩ := Option.map_eq_some_iff.mp h
  obtain ⟨⟨m, os⟩, hm, rfl⟩ := Option.map_eq_some_iff.mp hr
  obtain ⟨rfl, rfl⟩ := Prod.mk.inj heq
  refine ⟨m, os, hm, ?_, rfl⟩
  dsimp only
  rw [Cluster.outputs_append, Cluster.outputs_map_effect, Cluster.outputs_map_output,
    List.nil_append]

/-- **A section on the wire is a section of the cluster of messages.** -/
theorem runSection_path (hhosts : c.hosts = w.hosts) {i : ℕ} (hi : i ∈ conf.members) {g : Trigger}
    (hadm : c.Admissible (.run i g)) {x : Input} {net : List Packet}
    (hfetch : c.fetch i g = some (x, net)) {es : List Node.Event}
    (h : w.runSection i x = some (w', es)) : ∃ m os, (w.hosts i).handle x = some (m, os) ∧
      Cluster.outputs es = os ∧
      w'.rpcs = w.rpcs ++ os.flatMap (Output.rpcs i (w.hosts i).boot (w.hosts i).server.peers) ∧
      Path (Cluster.machine conf) Cluster.Admissible c (Cluster.tag i es)
        ⟨w'.hosts, net ++
          os.flatMap (Output.packets i (w.hosts i).boot (w.hosts i).server.peers g)⟩ := by
  obtain ⟨m, os, hm, rfl, rfl⟩ := runSection_eq_some h
  refine ⟨m, os, hm, ?_, rfl, ?_⟩
  · rw [Cluster.outputs_append, Cluster.outputs_map_effect, Cluster.outputs_map_output,
      List.nil_append]
  · have hstep := Cluster.step_run hi hfetch (hhosts ▸ hm)
    rw [hhosts] at hstep
    exact .step hadm hstep

end Wire

/-! ## Bounds -/

namespace Cluster

variable {conf : Config} {c : Cluster} {tr : List (ℕ × Node.Event)}

/-- The numbers of the last entry have 64 bits. -/
theorem last_lt (h : Run (machine conf) Admissible tr c) {i : ℕ} (hi : i ∈ conf.members) :
    (c.hosts i).server.getLastLogIndex < 2 ^ 64 ∧ (c.hosts i).server.getLastLogTerm < 2 ^ 64 := by
  obtain ⟨a, ha⟩ := refined h
  have hentries := (ha.mirrored i hi).logged.entries
  rw [Server.getLastLogIndex, Server.getLastLogTerm]
  cases hlast : (c.hosts i).server.logEntries.getLast? with
  | none => exact ⟨Nat.two_pow_pos 64, Nat.two_pow_pos 64⟩
  | some e =>
    have hwf := hentries e (List.mem_of_getLast? hlast)
    exact ⟨hwf.index_lt, hwf.term_lt⟩

/-- **The numbers of a request for a vote fit into its body.** -/
theorem requestVote_bounded (h : Run (machine conf) Admissible tr c) {caller b callee : ℕ}
    {args : RequestVoteArgs} (hp : .requestVote caller b callee args ∈ c.network) :
    args.Bounded := by
  have hlast : ∀ caller b callee args, .requestVote caller b callee args ∈ c.network →
      args.lastLogIndex < 2 ^ 64 ∧ args.lastLogTerm < 2 ^ 64 := by
    refine h.invariant (I := fun _ c => ∀ caller b callee args,
      .requestVote caller b callee args ∈ c.network →
        args.lastLogIndex < 2 ^ 64 ∧ args.lastLogTerm < 2 ^ 64)
      (fun _ _ _ _ hp => absurd hp List.not_mem_nil) ?_
    intro tr c x c' evs hrun ih _ hs caller b callee args hp
    cases step_moves hs with
    | run i g x net m os hi hfetch hm =>
      have hsends := handle_sends hfetch hm
      dsimp only at hp
      generalize os.flatMap (Output.packets i (c.hosts i).boot (c.hosts i).server.peers g) = sent
        at hsends hp
      rcases List.mem_append.mp hp with hp | hp
      · exact ih _ _ _ _ (fetch_subset hfetch hp)
      · cases hsends with
        | votes =>
          obtain ⟨p, -, heq⟩ := List.mem_map.mp hp
          obtain ⟨-, -, -, rfl⟩ := Packet.requestVote.inj heq
          exact last_lt hrun hi
        | none => exact absurd hp List.not_mem_nil
        | voteReply | appendReply | append => exact absurd hp (by simp)
    | crash => exact ih _ _ _ _ hp
    | crashIn i g q retries x net m os hi hfetch => exact ih _ _ _ _ (fetch_subset hfetch hp)
    | lose q => exact ih _ _ _ _ (List.mem_of_mem_erase hp)
  have hinv := electionInv (h.mono fun _ _ => Admissible.intact)
  obtain ⟨hcaller, -, hid, hterm⟩ := hinv.packets _ hp
  obtain ⟨hindex, hlastTerm⟩ := hlast _ _ _ _ hp
  exact ⟨hterm.trans_lt (hinv.term_lt hcaller), hid ▸ conf.lt caller hcaller, hindex, hlastTerm⟩

end Cluster

namespace Cluster

variable {c c' : Cluster} {x : Action} {i : ℕ} {g g' : Trigger}

/-- What is assumed of a step is about the nodes. -/
theorem Admissible.congr (h : c.Admissible x) (hhosts : c'.hosts = c.hosts) : c'.Admissible x := by
  rcases x with ⟨i, g⟩ | ⟨i, retries⟩ | ⟨i, g, p, retries⟩ | p
  · rw [Admissible, term, hhosts]
    exact h
  · rw [Admissible, hhosts]
    exact h
  · exact h
  · trivial

/-- Replies are handled under no other assumption than that the log is short. -/
theorem Admissible.trigger (h : c.Admissible (.run i g)) (htimeout : g' ≠ .thread .electionTimeout)
    (hpropose : ∀ request, g' ≠ .thread (.propose request))
    (happend : ∀ caller b callee args, g' ≠ .packet (.appendEntries caller b callee args)) :
    c.Admissible (.run i g') :=
  ⟨fun heq => absurd heq htimeout, h.2.1, fun request heq => absurd heq (hpropose request),
    fun caller b callee args heq => absurd heq (happend caller b callee args)⟩

end Cluster

namespace Wire

variable {conf : Config} {w w' : Wire} {c : Cluster} {tr evs : List (ℕ × Node.Event)} {n : ℕ}
  {r : Rpc}

/-! ## Every step -/

/-- The members, without what is on its way. -/
def members (w : Wire) : Cluster := ⟨w.hosts, []⟩

/-- `Cluster.Admissible`, said of the sections that an action runs. -/
def Admissible (w : Wire) : Action → Prop
  | .run i x => w.members.Admissible (.run i (.thread x))
  | .refuse n | .ask n _ | .read n _ =>
    ∀ r ∈ w.rpcs[n]?, w.members.Admissible (.run r.caller (.thread (.contactFailed r.callee)))
  | .serve n _ _ => ∀ r ∈ w.rpcs[n]?, w.members.Admissible (.run r.callee (.packet r.request))
  | .crash i retries => w.members.Admissible (.crash i retries)

/-- A section that is no handler of a request, or none at all. -/
theorem follow_carries {ps : List Packet} (hhosts : c.hosts = w.hosts)
    (hps : Rpc.Carried w.rpcs ps) {i : ℕ} (hi : i ∈ conf.members) {y : Option Input}
    (hnone : y = none → ps.Subperm c.network)
    (hsome : ∀ x ∈ y, (∀ args, x ≠ .requestVote args) ∧ (∀ args, x ≠ .appendEntries args) ∧
      ∃ g net, c.Admissible (.run i g) ∧ c.fetch i g = some (x, net) ∧ ps.Subperm net)
    (h : w.follow i y = some (w', evs)) :
    ∃ c', Path (Cluster.machine conf) Cluster.Admissible c evs c' ∧ w'.Carries c' := by
  cases y with
  | none =>
    obtain ⟨rfl, rfl⟩ := Prod.mk.inj (Option.some.inj h)
    exact ⟨c, .refl, hhosts, ps, hps, hnone rfl⟩
  | some x =>
    obtain ⟨hvote, happend, g, net, hadm, hfetch, hsub⟩ := hsome x rfl
    obtain ⟨⟨w₁, es⟩, hrun, heq⟩ := Option.map_eq_some_iff.mp h
    obtain ⟨rfl, rfl⟩ := Prod.mk.inj heq
    obtain ⟨m, os, hm, -, hrpcs, hpath⟩ := runSection_path hhosts hi hadm hfetch hrun
    rw [packets_eq_requests (Node.reply?_eq_none hm hvote happend)] at hpath
    refine ⟨_, hpath, rfl, _, ?_, (List.Subperm.append hsub (List.Subperm.refl _))⟩
    rw [hrpcs]
    exact hps.append (Rpc.carried_ready fun _ => ready_of_mem_rpcs)

/-- What a caller runs after a failure, it can run at any time. -/
theorem failure_fetch
    (hadm : c.Admissible (.run r.caller (.thread (.contactFailed r.callee)))) {ps : List Packet}
    (hps : ps.Subperm c.network) :
    ∀ x ∈ r.failure, (∀ args, x ≠ .requestVote args) ∧ (∀ args, x ≠ .appendEntries args) ∧
      ∃ g net, c.Admissible (.run r.caller g) ∧ c.fetch r.caller g = some (x, net) ∧
        ps.Subperm net := by
  intro x hx
  obtain rfl : x = .contactFailed r.callee := by
    rw [Rpc.failure] at hx
    split at hx
    · exact absurd hx (by simp)
    · exact (Option.some.inj hx).symm
  exact ⟨by simp, by simp, _, c.network, hadm, Cluster.fetch_thread rfl, hps⟩

/-- An RPC in another phase. -/
theorem Carries.setPhase (h : w.Carries c) (hn : w.rpcs[n]? = some r) :
    ∃ q rest, r.Holds q ∧ (q ++ rest).Subperm c.network ∧
      ∀ phase q', Rpc.Holds { r with phase := phase } q' →
        ∃ ps, Rpc.Carried (w.setPhase n r phase).rpcs ps ∧
          ∀ {net : List Packet}, (q' ++ rest).Subperm net → ps.Subperm net := by
  obtain ⟨ps, hps, hsub⟩ := h.messages
  obtain ⟨q, rest, hq, hperm, hset⟩ := hps.set hn
  refine ⟨q, rest, hq, hperm.subperm_right.mp hsub, fun phase q' hq' => ?_⟩
  obtain ⟨ps', hps', hperm'⟩ := hset _ _ hq'
  exact ⟨ps', hps', fun hnet => hperm'.subperm_right.mpr hnet⟩

/-- A dial is refused. -/
theorem Carries.refuse (h : w.Carries c) (hn : w.rpcs[n]? = some r)
    (hadm : w.members.Admissible (.run r.caller (.thread (.contactFailed r.callee))))
    (hs : w.refuse conf n r = some (w', evs)) :
    ∃ c', Path (Cluster.machine conf) Cluster.Admissible c evs c' ∧ w'.Carries c' := by
  obtain ⟨q, rest, -, hsub, hset⟩ := h.setPhase hn
  obtain ⟨ps, hps, hnet⟩ := hset .over [] rfl
  have hps' : ps.Subperm c.network :=
    hnet ((List.sublist_append_right q rest).subperm.trans hsub)
  rw [Wire.refuse] at hs
  split at hs
  · next hlives =>
    exact follow_carries (w := w.setPhase n r .over) h.hosts hps hlives.2.1 (fun _ => hps')
      (failure_fetch (hadm.congr h.hosts) hps') hs
  · exact absurd hs (by simp)

/-- A request is sent, or a part of it. -/
theorem Carries.ask (h : w.Carries c) (hn : w.rpcs[n]? = some r)
    (hadm : w.members.Admissible (.run r.caller (.thread (.contactFailed r.callee))))
    {sends : List Send} (hs : w.ask conf n r sends = some (w', evs)) :
    ∃ c', Path (Cluster.machine conf) Cluster.Admissible c evs c' ∧ w'.Carries c' := by
  rw [Wire.ask] at hs
  split at hs
  · next hlives =>
    obtain ⟨q, rest, hq, hsub, hset⟩ := h.setPhase hn
    rw [Rpc.Holds, hlives.1] at hq
    dsimp only at hs hq
    generalize hsent : sendRpc sends r.args.type r.args.body = sent at hs
    obtain ⟨ps, hps, hnet⟩ := hset (.asked (w.hosts r.callee).boot sent.2.1 sent.1) [r.request]
      ⟨rfl, sends, by rw [hsent]⟩
    have hps' : ps.Subperm c.network := hnet (hq ▸ hsub)
    refine follow_carries (w := w.setPhase n r (.asked (w.hosts r.callee).boot sent.2.1 sent.1))
      h.hosts hps hlives.2.1 (fun _ => hps') (fun x hx => ?_) hs
    split at hx
    · exact absurd hx (by simp)
    · exact failure_fetch (hadm.congr h.hosts) hps' x hx
  · exact absurd hs (by simp)

/-- A reply is read, or none is. -/
theorem Carries.read (h : w.Carries c) (hrun : Run (Cluster.machine conf) Cluster.Admissible tr c)
    (hn : w.rpcs[n]? = some r)
    (hadm : w.members.Admissible (.run r.caller (.thread (.contactFailed r.callee))))
    {recvs : List (Recv UInt8)} (hs : w.read conf n r recvs = some (w', evs)) :
    ∃ c', Path (Cluster.machine conf) Cluster.Admissible c evs c' ∧ w'.Carries c' := by
  obtain ⟨⟨bytes, phase⟩, hpending, hs⟩ := Option.bind_eq_some_iff.mp hs
  dsimp only at hs
  split at hs
  · next hlives =>
    obtain ⟨⟨hcaller, hboot⟩, hpre⟩ := hlives
    have hpre := List.isPrefixOf_iff_prefix.mp hpre
    have hadm' := hadm.congr h.hosts
    obtain ⟨q, rest, hq, hsub, hset⟩ := h.setPhase hn
    -- nothing has been read: the RPC has failed
    have hfailed : ∀ q', Rpc.Holds { r with phase := phase } q' → q'.Subperm q →
        r.reading recvs = none →
          ∃ c', Path (Cluster.machine conf) Cluster.Admissible c evs c' ∧ w'.Carries c' := by
      intro q' hq' hle hnone
      obtain ⟨ps, hps, hnet⟩ := hset phase q' hq'
      have hps' : ps.Subperm c.network :=
        hnet ((hle.append (List.Subperm.refl rest)).trans hsub)
      rw [hnone, Option.none_or] at hs
      exact follow_carries (w := w.setPhase n r phase) h.hosts hps hcaller (fun _ => hps')
        (failure_fetch hadm' hps') hs
    unfold pending at hpending
    split at hpending
    · next life bytes' hphase =>
      obtain ⟨rfl, rfl⟩ := Prod.mk.inj (Option.some.inj hpending)
      rw [Rpc.Holds, hphase] at hq
      exact hfailed q ⟨hq.1, hq.2⟩ (List.Subperm.refl q)
        (Rpc.reading_eq_none (List.prefix_nil.mp hpre))
    · next bytes' hphase =>
      obtain ⟨rfl, rfl⟩ := Prod.mk.inj (Option.some.inj hpending)
      rw [Rpc.Holds, hphase] at hq
      rcases hq with ⟨rfl, rfl⟩ | ⟨p, type, body, sends, hreply, rfl, rfl⟩
      · exact hfailed [] rfl (List.Subperm.refl [])
          (Rpc.reading_eq_none (List.prefix_nil.mp hpre))
      · have hp : p ∈ c.network := hsub.subset List.mem_cons_self
        obtain ⟨x, hinput, hvote, happend, hno⟩ := hreply.exists_input
        have hboot' : (c.hosts r.caller).boot = r.boot := by rw [h.hosts, hboot]
        have hfetch : c.fetch r.caller (.packet p) = some (x, c.network.erase p) := by
          rw [Cluster.fetch, if_pos hp, hboot', hinput]
          rfl
        have hbounded : x.Bounded (c.hosts r.caller).server :=
          (Cluster.electionInv (hrun.mono fun _ _ => Cluster.Admissible.intact)).bounded hfetch
            (fun heq => absurd heq (by simp))
        have hframe := hpre.trans (sendRpc_sent sends type hreply.length_lt).1
        rcases Rpc.reading_eq hreply (s := (c.hosts r.caller).server)
          (fun y hy => by
            rw [hinput] at hy
            rwa [← Option.some.inj hy]) hframe with hnone | hsome
        · exact hfailed [] rfl (List.nil_subperm) hnone
        · obtain ⟨ps, hps, hnet⟩ := hset .over [] rfl
          have hrest : rest.Subperm (c.network.erase p) := by
            have herase := hsub.erase p
            rwa [List.singleton_append, List.erase_cons_head] at herase
          rw [hsome, hinput, Option.some_or] at hs
          refine follow_carries (w := w.setPhase n r .over) h.hosts hps hcaller
            (fun hx => absurd hx (by simp)) (fun y hy => ?_) hs
          obtain rfl := Option.some.inj hy
          exact ⟨hvote, happend, .packet p, _, hadm'.trigger (by simp) (by simp)
            (fun _ _ _ _ heq => hno _ _ _ _ (Trigger.packet.inj heq)), hfetch,
            hnet hrest⟩
    · exact absurd hpending (by simp)
  · exact absurd hs (by simp)

/-- What a handler of a request replies. -/
theorem replies_of_handle {x : Input} {b : ℕ} (hx : r.request.input r.callee b = some x)
    {nd m : Node} {os : List Output} (hm : nd.handle x = some (m, os)) (peers : List ℕ) :
    ∃ o p type body, os = [o] ∧ r.Replies p type body ∧ o.reply? = some (type, body) ∧
      o.rpcs r.callee b peers = [] ∧ o.packets r.callee b peers (.packet r.request) = [p] := by
  rw [Rpc.request] at hx ⊢
  split at hx
  · next args hargs =>
    obtain rfl := Option.some.inj ((if_pos rfl).symm.trans hx)
    cases Node.handle_section hm with
    | requestVote => exact ⟨_, _, _, _, rfl, .vote args _ hargs, rfl, rfl, rfl⟩
  · next args hargs =>
    rw [Packet.input, if_pos rfl] at hx
    obtain ⟨args', -, rfl⟩ := Option.map_eq_some_iff.mp hx
    cases Node.handle_section hm with
    | appendEntries _ reply => exact ⟨_, _, _, _, rfl, .append args reply.1 hargs, rfl, rfl, rfl⟩

/-- A request that may be handled has a length that fits. -/
theorem body_length_lt (hadm : w.members.Admissible (.run r.callee (.packet r.request))) :
    r.args.body.length < 2 ^ 32 := by
  rw [Rpc.request] at hadm
  split at hadm
  · next args hargs =>
    rw [hargs, RpcArgs.body, length_serializeRequestVoteArgs]
    decide
  · next args hargs =>
    rw [hargs]
    exact hadm.2.2.2 _ _ _ _ rfl

/-- A request is handled, or what arrives of it is thrown away. -/
theorem Carries.serve (h : w.Carries c) (hrun : Run (Cluster.machine conf) Cluster.Admissible tr c)
    (hn : w.rpcs[n]? = some r) (hadm : w.members.Admissible (.run r.callee (.packet r.request)))
    {recvs : List (Recv UInt8)} {sends : List Send}
    (hs : w.serve conf n r recvs sends = some (w', evs)) :
    ∃ c', Path (Cluster.machine conf) Cluster.Admissible c evs c' ∧ w'.Carries c' := by
  unfold Wire.serve at hs
  split at hs
  · next life bytes waiting hphase =>
    split at hs
    · next hlives =>
      obtain ⟨hcallee, hlife, hpre⟩ := hlives
      obtain ⟨q, rest, hq, hsub, hset⟩ := h.setPhase hn
      rw [Rpc.Holds, hphase] at hq
      obtain ⟨rfl, sends', rfl⟩ := hq
      have hp : r.request ∈ c.network := hsub.subset List.mem_cons_self
      obtain ⟨y, hy, hs⟩ := Option.bind_eq_some_iff.mp hs
      have hframe := (List.isPrefixOf_iff_prefix.mp hpre).trans
        (sendRpc_sent sends' r.args.type (body_length_lt hadm)).1
      have hvote : ∀ args, r.args = .requestVote args → args.Bounded := by
        intro args hargs
        rw [Rpc.request, hargs] at hp
        exact Cluster.requestVote_bounded hrun hp
      rcases Rpc.requestRead_eq hvote (body_length_lt hadm) hframe (w.hosts r.callee).boot with
        ⟨-, hnone⟩ | ⟨-, hsome⟩
      · obtain rfl := Option.some.inj (hnone.symm.trans hy)
        obtain ⟨rfl, rfl⟩ := Prod.mk.inj (Option.some.inj hs)
        have hholds : Rpc.Holds { r with phase := if waiting then .answered [] else .over } [] := by
          cases waiting with
          | true => exact Or.inl ⟨rfl, rfl⟩
          | false => exact rfl
        obtain ⟨ps, hps, hnet⟩ := hset _ _ hholds
        exact ⟨c, .refl, h.hosts, ps, hps,
          hnet ((List.sublist_append_right _ rest).subperm.trans hsub)⟩
      · obtain ⟨x, hinput, rfl⟩ := Option.map_eq_some_iff.mp (hsome.symm.trans hy)
        obtain ⟨⟨w₁, es⟩, hsection, heq⟩ := Option.map_eq_some_iff.mp hs
        obtain ⟨rfl, rfl⟩ := Prod.mk.inj heq
        have hfetch : c.fetch r.callee (.packet r.request) =
            some (x, c.network.erase r.request) := by
          rw [Cluster.fetch, if_pos hp, h.hosts, hinput]
          rfl
        obtain ⟨m, os, hm, hos, hrpcs, hpath⟩ :=
          runSection_path h.hosts hcallee (hadm.congr h.hosts) hfetch hsection
        obtain ⟨o, p, type, body, rfl, hreply, hbody, hnew, hpackets⟩ :=
          replies_of_handle hinput hm (w.hosts r.callee).server.peers
        rw [List.flatMap_singleton, hpackets] at hpath
        rw [List.flatMap_singleton, hnew, List.append_nil] at hrpcs
        have hbytes : replyBytes sends (Cluster.outputs es) = (sendRpc sends type body).2.1 := by
          rw [replyBytes, hos, List.filterMap_cons_some hbody, List.filterMap_nil,
            List.flatMap_singleton]
        have hrest : rest.Subperm (c.network.erase r.request) := by
          have herase := hsub.erase r.request
          rwa [List.singleton_append, List.erase_cons_head] at herase
        dsimp only
        rw [hbytes]
        refine ⟨_, hpath, rfl, ?_⟩
        cases waiting with
        | true =>
          obtain ⟨ps, hps, hnet⟩ := hset (.answered (sendRpc sends type body).2.1) [p]
            (Or.inr ⟨p, type, body, sends, hreply.setPhase _, rfl, rfl⟩)
          refine ⟨ps, ?_, hnet (List.perm_append_comm.subperm_right.mp ?_)⟩
          · show Rpc.Carried (w₁.rpcs.set n _) ps
            rw [hrpcs]
            exact hps
          · exact hrest.append (List.Subperm.refl [p])
        | false =>
          obtain ⟨ps, hps, hnet⟩ := hset .over [] rfl
          refine ⟨ps, ?_, hnet ?_⟩
          · show Rpc.Carried (w₁.rpcs.set n _) ps
            rw [hrpcs]
            exact hps
          · exact hrest.trans (List.sublist_append_left _ _).subperm
    · exact absurd hs (by simp)
  · exact absurd hs (by simp)

/-- **Every step is followed by the messages.** -/
theorem Carries.step (h : w.Carries c) (hrun : Run (Cluster.machine conf) Cluster.Admissible tr c)
    {a : Action} (hadm : w.Admissible a) (hs : step conf w a = some (w', evs)) :
    ∃ c', Path (Cluster.machine conf) Cluster.Admissible c evs c' ∧ w'.Carries c' := by
  rcases a with ⟨i, x⟩ | n | ⟨n, sends⟩ | ⟨n, recvs, sends⟩ | ⟨n, recvs⟩ | ⟨i, retries⟩ <;>
    rw [Wire.step] at hs
  · have hadm : w.members.Admissible (.run i (.thread x)) := hadm
    split at hs
    · next hi =>
      obtain ⟨ps, hps, hsub⟩ := h.messages
      refine follow_carries h.hosts hps hi.1 (fun hx => absurd hx (by simp)) (fun y hy => ?_) hs
      obtain rfl := Option.some.inj hy
      have hown := hi.2
      refine ⟨?_, ?_, .thread x, c.network, hadm.congr h.hosts, Cluster.fetch_thread ?_, hsub⟩
      · rintro args rfl
        exact absurd hown (by simp [Input.isOwn])
      · rintro args rfl
        exact absurd hown (by simp [Input.isOwn])
      · cases x <;> first | rfl | exact absurd hown (by simp [Input.isOwn])
    · exact absurd hs (by simp)
  · obtain ⟨r, hn, hs⟩ := Option.bind_eq_some_iff.mp hs
    exact h.refuse hn (hadm r hn) hs
  · obtain ⟨r, hn, hs⟩ := Option.bind_eq_some_iff.mp hs
    exact h.ask hn (hadm r hn) hs
  · obtain ⟨r, hn, hs⟩ := Option.bind_eq_some_iff.mp hs
    exact h.serve hrun hn (hadm r hn) hs
  · obtain ⟨r, hn, hs⟩ := Option.bind_eq_some_iff.mp hs
    exact h.read hrun hn (hadm r hn) hs
  · have hadm : w.members.Admissible (.crash i retries) := hadm
    split at hs
    · next hi =>
      obtain ⟨r, hr, heq⟩ := Option.map_eq_some_iff.mp hs
      obtain ⟨rfl, rfl⟩ := Prod.mk.inj heq
      have hstep : (Cluster.machine conf).step c (.crash i retries) =
          some (⟨Function.update c.hosts i r.1, c.network ++ []⟩, Cluster.tag i r.2) := by
        show Cluster.step conf c (.crash i retries) = _
        rw [Cluster.step, if_pos hi, Cluster.stepNode, h.hosts, hr]
        rfl
      refine ⟨_, .step (hadm.congr h.hosts) hstep, ?_, ?_⟩
      · rw [h.hosts]
      · rw [List.append_nil]
        exact h.messages
    · exact absurd hs (by simp)

theorem exists_carries (h : Run (machine conf) Admissible tr w) :
    ∃ c, Run (Cluster.machine conf) Cluster.Admissible tr c ∧ w.Carries c := by
  have hinit : (initial conf).Carries (Cluster.initial conf) :=
    ⟨rfl, [], .nil, List.Subperm.refl []⟩
  exact h.simulates hinit fun _ hrun hc hadm hs => hc.step hrun hadm hs

/-- **The cluster on streams refines the cluster of messages**: every run on streams is a run of
messages, with the same nodes and the same trace. -/
theorem refines_messages (h : Run (machine conf) Admissible tr w) :
    ∃ c, Run (Cluster.machine conf) Cluster.Admissible tr c ∧ c.hosts = w.hosts := by
  obtain ⟨c, hrun, hc⟩ := exists_carries h
  exact ⟨c, hrun, hc.hosts⟩

/-- `Admissible`, decided as `Cluster.admits` does it. -/
def admits (w : Wire) : Action → Bool
  | .run i x => w.members.admits (.run i (.thread x))
  | .refuse n | .ask n _ | .read n _ =>
    w.rpcs[n]?.all fun r => w.members.admits (.run r.caller (.thread (.contactFailed r.callee)))
  | .serve n _ _ => w.rpcs[n]?.all fun r => w.members.admits (.run r.callee (.packet r.request))
  | .crash i retries => w.members.admits (.crash i retries)

theorem admissible_of_admits (w : Wire) (a : Action) (h : w.admits a = true) : w.Admissible a := by
  have hrpc : ∀ {n : ℕ} {f : Rpc → Cluster.Action},
      (w.rpcs[n]?.all fun r => w.members.admits (f r)) = true →
        ∀ r ∈ w.rpcs[n]?, w.members.Admissible (f r) := by
    intro n f hall r hr
    rw [hr, Option.all_some] at hall
    exact Cluster.admissible_of_admits _ _ hall
  rcases a with ⟨i, x⟩ | n | ⟨n, sends⟩ | ⟨n, recvs, sends⟩ | ⟨n, recvs⟩ | ⟨i, retries⟩
  · exact Cluster.admissible_of_admits w.members (.run i (.thread x)) h
  · exact hrpc h
  · exact hrpc h
  · exact hrpc h
  · exact hrpc h
  · exact Cluster.admissible_of_admits w.members (.crash i retries) h

/-- An election on streams that come in pieces, after which a request gets lost on its way. -/
theorem refines_messages_election : ∃ tr w c, Run (machine .three) Admissible tr w ∧
    (w.hosts 1).server.role = .leader ∧ (w.hosts 1).server.peerUp 2 = false ∧
    Run (Cluster.machine .three) Cluster.Admissible tr c ∧ c.hosts = w.hosts := by
  let ask : Bytes := frame (1, serializeRequestVoteArgs ⟨1, 1, 0, 0⟩)
  let vote : Bytes := frame (2, serializeRequestVoteReply ⟨1, true⟩)
  let probe : Bytes := frame (3, serializeAppendEntriesArgs ⟨1, 1, 1, 1, [], 0⟩)
  obtain ⟨tr, w, hrun, h⟩ := Run.exists_of_exec admissible_of_admits (M := machine .three)
    (fun w _ => decide ((w.hosts 1).server.role = .leader ∧ (w.hosts 1).server.peerUp 2 = false))
    [.run 1 .electionTimeout, .run 1 .sendRequestVotes,
      .ask 0 [.accepted 3, .fault .interrupted, .accepted 2, .accepted 20, .accepted 20],
      .ask 1 [.accepted 5, .accepted 9, .fault .broken],
      .serve 0 [.received (ask.take 7), .fault .interrupted, .received (ask.drop 7)]
        [.accepted 5, .accepted 9],
      .serve 1 [.received (ask.take 14)] [],
      .read 0 [.received (vote.take 1), .received (vote.drop 1)],
      .run 1 (.replicate 2), .ask 2 [.accepted 5, .accepted 44],
      .serve 2 [.received (probe.take 40), .fault .timedOut] [],
      .read 2 [.fault .timedOut]]
    (by decide +kernel)
  obtain ⟨hrole, hup⟩ := of_decide_eq_true h
  obtain ⟨c, hc, hhosts⟩ := refines_messages hrun
  exact ⟨tr, w, c, hrun, hrole, hup, hc, hhosts⟩

/-! ## Requests of members are harmless -/

/-- What a member asks can be answered, in whatever state. -/
theorem request_handled (hrun : Run (Cluster.machine conf) Cluster.Admissible tr c)
    (hp : r.request ∈ c.network) (hlen : r.args.body.length < 2 ^ 32) (nd : Node) (b : ℕ) :
    ∃ x m os, r.request.input r.callee b = some x ∧ nd.handle x = some (m, os) := by
  obtain ⟨a, ha⟩ := Cluster.refined hrun
  have htruthful := ha.sim.packets _ hp
  have hencodes := ha.encodes _ hp
  rw [Rpc.request] at htruthful hencodes ⊢
  cases hargs : r.args with
  | requestVote args => exact ⟨_, _, _, if_pos rfl, rfl⟩
  | appendEntries args =>
    rw [hargs] at htruthful hencodes hlen
    obtain ⟨L, hL⟩ := htruthful
    obtain ⟨hbounded, hwf⟩ := hencodes
    have hindex : ∀ e ∈ args.entries, e.index ≠ 0 := by
      intro e he
      rw [hL.entries] at he
      obtain ⟨k, hk⟩ := List.mem_iff_getElem?.mp (hL.isPrefix.subset (List.mem_of_mem_drop he))
      rw [ha.sim.indexed args.term k e hk]
      exact Nat.succ_ne_zero k
    obtain ⟨reply, hreply⟩ :=
      Option.isSome_iff_exists.mp (nd.server.handleAppendEntries_isSome hindex)
    have hinput : Packet.input r.callee b (.appendEntries r.caller r.boot r.callee args) =
        some (.appendEntries args) := by
      rw [Packet.input, if_pos rfl, receiveAppendEntries_of_wellFormed hbounded hlen hwf,
        Option.map_some]
    have hhandle : nd.handle (.appendEntries args) =
        some ({ nd with server := reply.2 }, [.appendEntriesReply reply.1]) := by
      rw [Node.handle, hreply, Option.map_some]
    exact ⟨_, _, _, hinput, hhandle⟩

/-- **No member harms another.**  Whatever has arrived of a request, a handler that reads it stays
within the body and within its log, in whatever state its server is.  It replies once to a request
that has arrived completely, and does nothing about any other. -/
theorem requests_harmless (h : Run (machine conf) Admissible tr w) (hn : w.rpcs[n]? = some r)
    {life : ℕ} {bytes : Bytes} {waiting : Bool} (hphase : r.phase = .asked life bytes waiting)
    (hlen : r.args.body.length < 2 ^ 32) {recvs : List (Recv UInt8)}
    (hpre : arrived retried recvs <+: bytes) (s : Server) :
    (¬ frame (r.args.type.code, r.args.body) <+: arrived retried recvs ∧
        s.servePeer recvs = some (s, [])) ∨
      frame (r.args.type.code, r.args.body) <+: arrived retried recvs ∧
        ∃ s' o, s.servePeer recvs = some (s', [o]) ∧ o.reply?.isSome = true := by
  obtain ⟨c, hrun, hc⟩ := exists_carries h
  obtain ⟨q, rest, hq, hsub, -⟩ := hc.setPhase hn
  rw [Rpc.Holds, hphase] at hq
  obtain ⟨rfl, sends, rfl⟩ := hq
  have hp : r.request ∈ c.network := hsub.subset List.mem_cons_self
  have hvote : ∀ args, r.args = .requestVote args → args.Bounded := by
    intro args hargs
    rw [Rpc.request, hargs] at hp
    exact Cluster.requestVote_bounded hrun hp
  -- a node with this server
  let nd : Node := ⟨s, Files.none, false, [], 0⟩
  have hserve := servePeer_eq_requestRead nd recvs
  rcases Rpc.requestRead_eq hvote hlen (hpre.trans (sendRpc_sent sends r.args.type hlen).1) 0 with
    ⟨hpart, hnone⟩ | ⟨hall, hsome⟩
  · rw [hnone, Option.bind_some] at hserve
    exact Or.inl ⟨hpart, hserve⟩
  · obtain ⟨x, m, os, hx, hm⟩ := request_handled hrun hp hlen nd 0
    obtain ⟨o, -, type, body, rfl, -, hreply, -, -⟩ := replies_of_handle hx hm []
    rw [hsome, hx, Option.map_some, Option.bind_some] at hserve
    dsimp only at hserve
    rw [hm, Option.map_some] at hserve
    exact Or.inr ⟨hall, _, o, hserve, Option.isSome_iff_exists.mpr ⟨_, hreply⟩⟩

/-- A request for a vote that arrives in two pieces is answered, by any server. -/
theorem requests_harmless_asked : ∃ tr w, Run (machine .three) Admissible tr w ∧
    ∀ s : Server, ∃ s' o, s.servePeer
        [.received ((frame (1, serializeRequestVoteArgs ⟨1, 1, 0, 0⟩)).take 7), .fault .interrupted,
          .received ((frame (1, serializeRequestVoteArgs ⟨1, 1, 0, 0⟩)).drop 7)] = some (s', [o]) ∧
      o.reply?.isSome = true := by
  let ask : Bytes := frame (1, serializeRequestVoteArgs ⟨1, 1, 0, 0⟩)
  let r : Rpc := ⟨1, 0, 2, .requestVote ⟨1, 1, 0, 0⟩, .asked 0 ask true⟩
  obtain ⟨tr, w, hrun, h⟩ := Run.exists_of_exec admissible_of_admits (M := machine .three)
    (fun w _ => decide (w.rpcs[0]? = some r))
    [.run 1 .electionTimeout, .run 1 .sendRequestVotes, .ask 0 [.accepted 5, .accepted 32]]
    (by decide +kernel)
  refine ⟨tr, w, hrun, fun s => ?_⟩
  have hpre : arrived retried
      [.received (ask.take 7), .fault .interrupted, .received (ask.drop 7)] <+: ask := by
    decide +kernel
  rcases requests_harmless hrun (of_decide_eq_true h) rfl (by decide +kernel) hpre s with
    hpart | ⟨-, hall⟩
  · exact absurd (by decide +kernel) hpart.1
  · exact hall

end Wire

end RaftConsensus
