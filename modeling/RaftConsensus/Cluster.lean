import RaftConsensus.Library.Runs
import RaftConsensus.Node
import Mathlib.Data.Finset.Card
import Mathlib.Data.List.Count

/-!
# A cluster

The members of a cluster run side by side and call each other.  A call is a request, and
a reply that goes back to the thread that made the call: it carries what this thread has in
its local variables, and it finds nobody if the caller was started again in the meantime.
Requests and replies wait in `network` until they are delivered, once, or lost; the order
in which they wait means nothing.

An `AppendEntries` goes through its byte form, and its receiver acts on what it decodes.
The messages of an election have a fixed size and arrive as they are.

A trace records, for each member, the effects of its sections and what its threads told
others.  `Cluster.machine` is a `Machine`, and the assumptions of a statement about runs
are restrictions of its steps:

* `Cluster.Intact`: no term wraps around, and crashes leave completed writes of metadata
  intact.
* `Cluster.Admissible`: also requests and messages fit into their length fields, no log
  outgrows the 64 bits of an index, and crashes fall between sections.
-/

namespace RaftConsensus

/-- The members of a cluster, and the `--peers` list of each: exactly the other members. -/
structure Config where
  members : Finset ℕ
  peers : ℕ → List ℕ
  nodup : ∀ i ∈ members, (peers i).Nodup
  mem_peers : ∀ i ∈ members, ∀ j, j ∈ peers i ↔ j ∈ members ∧ j ≠ i
  ne_zero : ∀ i ∈ members, i ≠ 0
  lt : ∀ i ∈ members, i < 2 ^ 64

/-- The cluster of the given nodes. -/
def Config.ofList (ids : List ℕ) (hnodup : ids.Nodup) (hne : ∀ i ∈ ids, i ≠ 0)
    (hlt : ∀ i ∈ ids, i < 2 ^ 64) : Config where
  members := ids.toFinset
  peers i := ids.filter fun j => j ≠ i
  nodup _ _ := hnodup.filter _
  mem_peers i _ j := by simp
  ne_zero i hi := hne i (List.mem_toFinset.mp hi)
  lt i hi := hlt i (List.mem_toFinset.mp hi)

/-- Three nodes, the least cluster that survives a crash. -/
def Config.three : Config := .ofList [1, 2, 3] (by decide) (by decide) (by decide)

/-- A request on its way from a caller to a callee, or the reply on its way back.  `boot` says
in which life of the caller the call was made. -/
inductive Packet
  | requestVote (caller boot callee : ℕ) (args : RequestVoteArgs)
  | requestVoteReply (caller boot callee : ℕ) (electionTerm : ℕ) (reply : RequestVoteReply)
  | appendEntries (caller boot callee : ℕ) (args : AppendEntriesArgs)
  | appendEntriesReply (caller boot callee : ℕ) (args : AppendEntriesArgs)
      (reply : AppendEntriesReply)
  deriving DecidableEq, Repr

/-- A cluster: its nodes, and the messages on their way. -/
structure Cluster where
  hosts : ℕ → Node
  network : List Packet

/-- What makes a section run: a thread of the node itself, or a message. -/
inductive Trigger
  | thread (x : Input)
  | packet (p : Packet)
  deriving DecidableEq, Repr

/-- The inputs that do not come from a message. -/
def Input.isLocal : Input → Bool
  | contactFailed _ | electionTimeout | sendRequestVotes | replicate _ | propose _ | wake _ _ =>
    true
  | _ => false

/-- What a message is to the node that receives it in its life `boot`, if it is meant for it. -/
def Packet.input (i boot : ℕ) : Packet → Option Input
  | requestVote _ _ callee args => if callee = i then some (.requestVote args) else none
  | requestVoteReply caller b _ electionTerm reply =>
    if caller = i ∧ b = boot then some (.requestVoteReply electionTerm reply) else none
  | appendEntries _ _ callee args =>
    if callee = i then (receiveAppendEntries args).map .appendEntries else none
  | appendEntriesReply caller b callee args reply =>
    if caller = i ∧ b = boot then some (.appendEntriesReply callee args reply) else none

/-- The messages that node `i` sends in its life `boot` for one output of a section run by
`g`. -/
def Output.packets (i boot : ℕ) (peers : List ℕ) (g : Trigger) : Output → List Packet
  | requestVoteReply reply =>
    match g with
    | .packet (.requestVote caller b _ args) => [.requestVoteReply caller b i args.term reply]
    | _ => []
  | appendEntriesReply reply =>
    match g with
    | .packet (.appendEntries caller b _ args) => [.appendEntriesReply caller b i args reply]
    | _ => []
  | requestVotes args => peers.map fun p => .requestVote i boot p args
  | appendEntries peer args => [.appendEntries i boot peer args]
  | _ => []

namespace Cluster

/-- What happens in a cluster. -/
inductive Action
  /-- node `i` runs a section to its end -/
  | run (i : ℕ) (g : Trigger)
  /-- node `i` crashes between two sections -/
  | crash (i : ℕ) (retries : List CrashPoint)
  /-- node `i` crashes inside a section -/
  | crashIn (i : ℕ) (g : Trigger) (p : CrashPoint) (retries : List CrashPoint)
  /-- a message is lost -/
  | lose (p : Packet)
  deriving DecidableEq, Repr

/-- What a section of node `i` run by `g` gets as input, and the messages that are left. -/
def fetch (c : Cluster) (i : ℕ) : Trigger → Option (Input × List Packet)
  | .thread x => if x.isLocal then some (x, c.network) else none
  | .packet p =>
    if p ∈ c.network then
      (p.input i (c.hosts i).boot).map fun x => (x, c.network.erase p)
    else none

/-- The events of node `i`. -/
def tag (i : ℕ) (es : List Node.Event) : List (ℕ × Node.Event) := es.map fun e => (i, e)

/-- The outputs among the events. -/
def outputs (es : List Node.Event) : List Output :=
  es.filterMap fun
    | .output o => some o
    | _ => none

/-- The messages that node `i` sends for the events of a section run by `g`. -/
def sent (c : Cluster) (i : ℕ) (g : Trigger) (es : List Node.Event) : List Packet :=
  (outputs es).flatMap (Output.packets i (c.hosts i).boot (c.hosts i).server.peers g)

/-- Node `i` steps and sends. -/
def stepNode (c : Cluster) (i : ℕ) (send : List Node.Event → List Packet)
    (network : List Packet) (a : Node.Action) : Option (Cluster × List (ℕ × Node.Event)) :=
  ((c.hosts i).step a).map fun r =>
    ({ hosts := Function.update c.hosts i r.1, network := network ++ send r.2 }, tag i r.2)

/-- One step of a cluster, with what a trace records of it. -/
def step (conf : Config) (c : Cluster) : Action → Option (Cluster × List (ℕ × Node.Event))
  | .run i g =>
    if i ∈ conf.members then
      match c.fetch i g with
      | none => none
      | some (x, network) => c.stepNode i (c.sent i g) network (.run x)
    else none
  | .crash i retries =>
    if i ∈ conf.members then c.stepNode i (fun _ => []) c.network (.crash retries) else none
  | .crashIn i g p retries =>
    if i ∈ conf.members then
      match c.fetch i g with
      | none => none
      | some (x, network) => c.stepNode i (fun _ => []) network (.crashIn x p retries)
    else none
  | .lose p => if p ∈ c.network then some ({ c with network := c.network.erase p }, []) else none

/-- All members freshly started on empty directories, and no message. -/
def initial (conf : Config) : Cluster where
  hosts i := .start i (conf.peers i) Files.none 0
  network := []

/-- The cluster as a machine. -/
def machine (conf : Config) : Machine Cluster Action (ℕ × Node.Event) where
  init := initial conf
  step := step conf

end Cluster

end RaftConsensus
