import RaftConsensus.Cluster
import RaftConsensus.Framing

/-!
# A cluster on streams of bytes

In `Cluster` the members exchange messages.  Here they exchange bytes.  A thread that makes an RPC
dials its peer, sends the frame of its request and reads a frame back; the thread of the callee
reads the request, runs its section, sends the frame of its reply and closes.  A connection carries
one RPC, and the two ends see each other only through the bytes that arrive.

Sockets do what they like: a dial is refused, a call of `send` or `recv` does a part of its work, is
interrupted, times out or fails, and a stream ends anywhere.  All this is in the actions, as
schedules.  Crashes fall between sections.

`Rpc` is a call with what its thread holds in its local variables, and `Wire.machine` the cluster.
-/

namespace RaftConsensus

/-! ## Bodies of fixed size -/

/-- `serializeRequestVoteArgs`. -/
def serializeRequestVoteArgs (args : RequestVoteArgs) : Bytes :=
  bigEndian 8 args.term ++ (bigEndian 8 args.candidateId ++
    (bigEndian 8 args.lastLogIndex ++ bigEndian 8 args.lastLogTerm))

/-- `serializeRequestVoteReply`. -/
def serializeRequestVoteReply (reply : RequestVoteReply) : Bytes :=
  bigEndian 8 reply.term ++ bigEndian 1 (if reply.voteGranted then 1 else 0)

/-- `deserializeRequestVoteReply`; `none` is a read outside the body. -/
def deserializeRequestVoteReply (body : Bytes) : Option RequestVoteReply := do
  let term ← readBigEndian body 0 8
  let voteGranted ← readBigEndian body 8 1
  return ⟨term, voteGranted ≠ 0⟩

/-- `serializeAppendEntriesReply`. -/
def serializeAppendEntriesReply (reply : AppendEntriesReply) : Bytes :=
  bigEndian 8 reply.term ++ bigEndian 1 (if reply.success then 1 else 0)

/-- `deserializeAppendEntriesReply`; `none` is a read outside the body. -/
def deserializeAppendEntriesReply (body : Bytes) : Option AppendEntriesReply := do
  let term ← readBigEndian body 0 8
  let success ← readBigEndian body 8 1
  return ⟨term, success ≠ 0⟩

theorem length_serializeRequestVoteArgs (args : RequestVoteArgs) :
    (serializeRequestVoteArgs args).length = 32 := by
  simp [serializeRequestVoteArgs]

theorem length_serializeRequestVoteReply (reply : RequestVoteReply) :
    (serializeRequestVoteReply reply).length = 9 := by
  simp [serializeRequestVoteReply]

theorem length_serializeAppendEntriesReply (reply : AppendEntriesReply) :
    (serializeAppendEntriesReply reply).length = 9 := by
  simp [serializeAppendEntriesReply]

/-- The numbers of a request for a vote are 64-bit numbers. -/
structure RequestVoteArgs.Bounded (args : RequestVoteArgs) : Prop where
  term : args.term < 2 ^ 64
  candidateId : args.candidateId < 2 ^ 64
  lastLogIndex : args.lastLogIndex < 2 ^ 64
  lastLogTerm : args.lastLogTerm < 2 ^ 64

theorem deserializeRequestVoteArgs_serialize {args : RequestVoteArgs} (h : args.Bounded) :
    deserializeRequestVoteArgs (serializeRequestVoteArgs args) = some args := by
  have field : ∀ (front back : Bytes) (v pos : ℕ), v < 2 ^ 64 →
      serializeRequestVoteArgs args = front ++ (bigEndian 8 v ++ back) → pos = front.length →
        readBigEndian (serializeRequestVoteArgs args) pos 8 = some v := by
    intro front back v pos hv heq hpos
    rw [heq, readBigEndian_append_right front _ back hpos (length_bigEndian 8 v).symm,
      ofBigEndian_bigEndian_of_lt hv]
  unfold deserializeRequestVoteArgs
  rw [field [] _ args.term 0 h.term rfl rfl,
    field (bigEndian 8 args.term) _ args.candidateId 8 h.candidateId rfl (by simp),
    field (bigEndian 8 args.term ++ bigEndian 8 args.candidateId) (bigEndian 8 args.lastLogTerm)
      args.lastLogIndex 16 h.lastLogIndex (by simp [serializeRequestVoteArgs]) (by simp),
    field (bigEndian 8 args.term ++ (bigEndian 8 args.candidateId ++ bigEndian 8 args.lastLogIndex))
      [] args.lastLogTerm 24 h.lastLogTerm (by simp [serializeRequestVoteArgs]) (by simp)]
  rfl

/-- A term and a flag, as they stand in the two replies. -/
theorem read_reply {term : ℕ} (h : term < 2 ^ 64) (flag : Bool) :
    readBigEndian (bigEndian 8 term ++ bigEndian 1 (if flag then 1 else 0)) 0 8 = some term ∧
      readBigEndian (bigEndian 8 term ++ bigEndian 1 (if flag then 1 else 0)) 8 1 =
        some (if flag then 1 else 0) := by
  generalize hbit : (if flag then 1 else 0) = bit
  have hlt : bit < 256 ^ 1 := by
    rw [← hbit]
    split <;> norm_num
  have hterm := readBigEndian_append_right [] (bigEndian 8 term) (bigEndian 1 bit) (i := 0) (w := 8)
    rfl (by simp)
  have hflag := readBigEndian_append_right (bigEndian 8 term) (bigEndian 1 bit) [] (i := 8) (w := 1)
    (by simp) (by simp)
  rw [List.nil_append, ofBigEndian_bigEndian_of_lt h] at hterm
  rw [List.append_nil, ofBigEndian_bigEndian_of_lt hlt] at hflag
  exact ⟨hterm, hflag⟩

theorem deserializeRequestVoteReply_serialize {reply : RequestVoteReply}
    (h : reply.term < 2 ^ 64) :
    deserializeRequestVoteReply (serializeRequestVoteReply reply) = some reply := by
  obtain ⟨term, voteGranted⟩ := reply
  obtain ⟨hterm, hflag⟩ := read_reply h voteGranted
  unfold deserializeRequestVoteReply
  rw [serializeRequestVoteReply, hterm, hflag]
  cases voteGranted <;> rfl

theorem deserializeAppendEntriesReply_serialize {reply : AppendEntriesReply}
    (h : reply.term < 2 ^ 64) :
    deserializeAppendEntriesReply (serializeAppendEntriesReply reply) = some reply := by
  obtain ⟨term, success⟩ := reply
  obtain ⟨hterm, hflag⟩ := read_reply h success
  unfold deserializeAppendEntriesReply
  rw [serializeAppendEntriesReply, hterm, hflag]
  cases success <;> rfl

/-! ## RPCs -/

/-- What is asked; the thread that asks keeps it. -/
inductive RpcArgs
  | requestVote (args : RequestVoteArgs)
  | appendEntries (args : AppendEntriesArgs)
  deriving DecidableEq, Repr

namespace RpcArgs

/-- The type of the request. -/
def type : RpcArgs → RpcType
  | requestVote _ => .requestVoteArgs
  | appendEntries _ => .appendEntriesArgs

/-- The body of the request. -/
def body : RpcArgs → Bytes
  | requestVote args => serializeRequestVoteArgs args
  | appendEntries args => serializeAppendEntriesArgs args

end RpcArgs

/-- How far an RPC has got. -/
inductive Phase
  /-- the thread is about to dial -/
  | ready
  /-- the caller has sent these bytes to the callee, in this life of it; it waits for the reply, or
  it has given up -/
  | asked (life : ℕ) (bytes : Bytes) (waiting : Bool)
  /-- the callee has sent these bytes, and the caller has not read them yet -/
  | answered (bytes : Bytes)
  | over
  deriving DecidableEq, Repr

/-- An RPC, made by a thread of a life of the caller. -/
structure Rpc where
  caller : ℕ
  boot : ℕ
  callee : ℕ
  args : RpcArgs
  phase : Phase
  deriving DecidableEq, Repr

/-- The RPCs that node `i` starts in its life `boot` for an output of a section. -/
def Output.rpcs (i boot : ℕ) (peers : List ℕ) : Output → List Rpc
  | requestVotes args => peers.map fun p => ⟨i, boot, p, .requestVote args, .ready⟩
  | appendEntries peer args => [⟨i, boot, peer, .appendEntries args, .ready⟩]
  | _ => []

/-- The reply that an output is, with its body. -/
def Output.reply? : Output → Option (RpcType × Bytes)
  | requestVoteReply reply => some (.requestVoteReply, serializeRequestVoteReply reply)
  | appendEntriesReply reply => some (.appendEntriesReply, serializeAppendEntriesReply reply)
  | _ => none

/-- What a caller runs when its RPC has failed. -/
def Rpc.failure (r : Rpc) : Option Input :=
  match r.args with
  | .requestVote _ => none
  | .appendEntries _ => some (.contactFailed r.callee)

/-- What a caller makes of what it reads: the section that handles the reply, if it is one. -/
def Rpc.reading (r : Rpc) (recvs : List (Recv UInt8)) : Option Input :=
  match recvRpc recvs with
  | none => none
  | some ((code, body), _) =>
    match r.args with
    | .requestVote args =>
      if code ≠ RpcType.requestVoteReply.code ∨ body.length < 9 then none
      else (deserializeRequestVoteReply body).map (.requestVoteReply args.term)
    | .appendEntries args =>
      if code ≠ RpcType.appendEntriesReply.code ∨ body.length < 9 then none
      else (deserializeAppendEntriesReply body).map (.appendEntriesReply r.callee args)

/-- What a callee makes of what it reads: the section that handles the request, if it is one; the
outer `none` is a read outside the body. -/
def requestRead (recvs : List (Recv UInt8)) : Option (Option Input) :=
  match recvRpc recvs with
  | none => some none
  | some ((code, body), _) =>
    match RpcType.ofCode? code with
    | some .requestVoteArgs => (deserializeRequestVoteArgs body).map fun args =>
        some (.requestVote args)
    | some .appendEntriesArgs => (deserializeAppendEntriesArgs body).map fun args =>
        some (.appendEntries args)
    | _ => some none

/-- It is what `handlePeerConnection` does. -/
theorem servePeer_eq_requestRead (n : Node) (recvs : List (Recv UInt8)) :
    n.server.servePeer recvs = (requestRead recvs).bind fun
      | none => some (n.server, [])
      | some x => (n.handle x).map fun r => (r.1.server, r.2) := by
  rw [Server.servePeer, requestRead]
  rcases recvRpc recvs with _ | ⟨⟨code, body⟩, calls⟩
  · rfl
  dsimp only
  rcases RpcType.ofCode? code with _ | type
  · rfl
  cases type with
  | requestVoteArgs =>
    dsimp only
    rw [Server.handlePeerConnection]
    cases deserializeRequestVoteArgs body <;> rfl
  | appendEntriesArgs =>
    dsimp only
    rw [Server.handlePeerConnection]
    cases deserializeAppendEntriesArgs body with
    | none => rfl
    | some args =>
      rw [Option.bind_some, Option.map_some, Option.bind_some]
      dsimp only
      rw [Node.handle, Option.map_map]
      rfl
  | requestVoteReply | appendEntriesReply => rfl

/-! ## The cluster -/

/-- A cluster whose members exchange bytes. -/
structure Wire where
  hosts : ℕ → Node
  rpcs : List Rpc

/-- The inputs of threads that do not wait for a peer. -/
def Input.isOwn : Input → Bool
  | electionTimeout | sendRequestVotes | replicate _ | propose _ | wake _ _ => true
  | _ => false

namespace Wire

/-- What happens. -/
inductive Action
  /-- node `i` runs a section of a thread that does not wait for a peer -/
  | run (i : ℕ) (x : Input)
  /-- the dial of RPC `n` is refused -/
  | refuse (n : ℕ)
  /-- the caller of RPC `n` gets through and sends its request -/
  | ask (n : ℕ) (sends : List Send)
  /-- the callee of RPC `n` reads the request, handles it and sends the reply -/
  | serve (n : ℕ) (recvs : List (Recv UInt8)) (sends : List Send)
  /-- the caller of RPC `n` reads the reply -/
  | read (n : ℕ) (recvs : List (Recv UInt8))
  /-- node `i` crashes between two sections -/
  | crash (i : ℕ) (retries : List CrashPoint)
  deriving DecidableEq, Repr

/-- The wire with RPC `n` in another phase. -/
def setPhase (w : Wire) (n : ℕ) (r : Rpc) (phase : Phase) : Wire :=
  { w with rpcs := w.rpcs.set n { r with phase := phase } }

/-- Node `i` runs a section, and starts RPCs. -/
def runSection (w : Wire) (i : ℕ) (x : Input) : Option (Wire × List Node.Event) :=
  ((w.hosts i).step (.run x)).map fun r =>
    ({ hosts := Function.update w.hosts i r.1
       rpcs := w.rpcs ++ (Cluster.outputs r.2).flatMap
        (Output.rpcs i (w.hosts i).boot (w.hosts i).server.peers) }, r.2)

/-- Node `i` may run a section. -/
def follow (w : Wire) (i : ℕ) : Option Input → Option (Wire × List (ℕ × Node.Event))
  | none => some (w, [])
  | some x => (w.runSection i x).map fun r => (r.1, Cluster.tag i r.2)

/-- The bytes that a callee sends for the outputs of its section. -/
def replyBytes (sends : List Send) (os : List Output) : Bytes :=
  (os.filterMap Output.reply?).flatMap fun reply => (sendRpc sends reply.1 reply.2).2.1

/-- The thread of the caller is still there. -/
def Lives (conf : Config) (w : Wire) (r : Rpc) : Prop :=
  r.caller ∈ conf.members ∧ (w.hosts r.caller).boot = r.boot

instance (conf : Config) (w : Wire) (r : Rpc) : Decidable (w.Lives conf r) :=
  inferInstanceAs (Decidable (_ ∧ _))

/-- The dial of `r`, which is RPC `n`, is refused. -/
def refuse (conf : Config) (w : Wire) (n : ℕ) (r : Rpc) : Option (Wire × List (ℕ × Node.Event)) :=
  if r.phase = .ready ∧ w.Lives conf r then
    (w.setPhase n r .over).follow r.caller r.failure
  else none

/-- The caller of `r` sends its request. -/
def ask (conf : Config) (w : Wire) (n : ℕ) (r : Rpc) (sends : List Send) :
    Option (Wire × List (ℕ × Node.Event)) :=
  if r.phase = .ready ∧ w.Lives conf r then
    let sent := sendRpc sends r.args.type r.args.body
    let w := w.setPhase n r (.asked (w.hosts r.callee).boot sent.2.1 sent.1)
    w.follow r.caller (if sent.1 then none else r.failure)
  else none

/-- The callee of `r` handles the request. -/
def serve (conf : Config) (w : Wire) (n : ℕ) (r : Rpc) (recvs : List (Recv UInt8))
    (sends : List Send) : Option (Wire × List (ℕ × Node.Event)) :=
  match r.phase with
  | .asked life bytes waiting =>
    if r.callee ∈ conf.members ∧ (w.hosts r.callee).boot = life ∧
        (arrived retried recvs).isPrefixOf bytes then
      (requestRead recvs).bind fun
        | none => some (w.setPhase n r (if waiting then .answered [] else .over), [])
        | some x => (w.runSection r.callee x).map fun s =>
            let bytes := replyBytes sends (Cluster.outputs s.2)
            (s.1.setPhase n r (if waiting then .answered bytes else .over),
              Cluster.tag r.callee s.2)
    else none
  | _ => none

/-- What there is for the caller to read, and the phase after it has read. -/
def pending : Phase → Option (Bytes × Phase)
  | .asked life bytes true => some ([], .asked life bytes false)
  | .answered bytes => some (bytes, .over)
  | _ => none

/-- The caller of `r` reads the reply, or waits in vain. -/
def read (conf : Config) (w : Wire) (n : ℕ) (r : Rpc) (recvs : List (Recv UInt8)) :
    Option (Wire × List (ℕ × Node.Event)) :=
  (pending r.phase).bind fun (bytes, phase) =>
    if w.Lives conf r ∧ (arrived retried recvs).isPrefixOf bytes then
      (w.setPhase n r phase).follow r.caller ((r.reading recvs).or r.failure)
    else none

/-- One step, with what a trace records of it. -/
def step (conf : Config) (w : Wire) : Action → Option (Wire × List (ℕ × Node.Event))
  | .run i x => if i ∈ conf.members ∧ x.isOwn then w.follow i (some x) else none
  | .refuse n => w.rpcs[n]?.bind fun r => w.refuse conf n r
  | .ask n sends => w.rpcs[n]?.bind fun r => w.ask conf n r sends
  | .serve n recvs sends => w.rpcs[n]?.bind fun r => w.serve conf n r recvs sends
  | .read n recvs => w.rpcs[n]?.bind fun r => w.read conf n r recvs
  | .crash i retries =>
    if i ∈ conf.members then
      ((w.hosts i).step (.crash retries)).map fun r =>
        ({ w with hosts := Function.update w.hosts i r.1 }, Cluster.tag i r.2)
    else none

/-- All members freshly started on empty directories, and no RPC. -/
def initial (conf : Config) : Wire where
  hosts := (Cluster.initial conf).hosts
  rpcs := []

/-- The cluster as a machine. -/
def machine (conf : Config) : Machine Wire Action (ℕ × Node.Event) where
  init := initial conf
  step := step conf

end Wire

end RaftConsensus
