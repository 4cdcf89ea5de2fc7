import RaftConsensus.Cluster

/-!
# The client program (`client.cpp`) against a cluster

`RaftClient::execute` sends one line to one server after the other until it gets an answer
that it takes for final, twenty times at most.  Each turn of its loop is an *attempt*.  An
attempt is over for the client when its connection breaks, when nobody answers in time, or
when a server answers; what the attempt has set off in a server goes on without it.

`World` is a cluster together with the processes that run the client program, and with the
lines and answers on their way between them.  A line is served at most once, by a server
thread that calls `proposeAndWait`.  Nothing in a line says which call or attempt it comes
from: the tags here are for the trace alone.  Lines that do not go into the log
(`\status` and its like) are left out.

Whether a dial or a `send` succeeds, and when a client gives up waiting, is in the actions.
-/

namespace RaftConsensus

/-! ## `class RaftClient` -/

/-- `class RaftClient`; the addresses of a server are its id. -/
structure RaftClient where
  servers : List ℕ
  current : ℕ
  connected : Bool
  deriving DecidableEq, Repr

/-- `strtoull` to the base of ten: blanks, a sign, digits; numbers that are too large are cut to
the largest one. -/
def strtoull (text : Bytes) : ℕ :=
  let text := text.dropWhile fun b => b = 32 || (9 ≤ b && b ≤ 13)
  let (negative, digits) := match text with
    | 45 :: rest => (true, rest)
    | 43 :: rest => (false, rest)
    | rest => (false, rest)
  let n := (digits.takeWhile fun b => 48 ≤ b && b ≤ 57).foldl (fun n b => 10 * n + (b.toNat - 48)) 0
  if 2 ^ 64 ≤ n then 2 ^ 64 - 1 else if negative then (2 ^ 64 - n) % 2 ^ 64 else n

namespace RaftClient

/-- `closeConn`. -/
def closeConn (c : RaftClient) : RaftClient := { c with connected := false }

/-- `current = (current + 1) % servers.size()`. -/
def rotate (c : RaftClient) : RaftClient :=
  { c with current := (c.current + 1) % c.servers.length }

/-- `indexForId`. -/
def indexForId (c : RaftClient) (id : ℕ) : Option ℕ := c.servers.findIdx? fun s => s = id

/-- The loop of `ensureConnected`, with the outcomes of the dials to come. -/
def dialLoop : ℕ → List Bool → RaftClient → Bool × RaftClient
  | 0, _, c => (false, c)
  | tries + 1, dials, c =>
    if dials.headD false then (true, { c with connected := true })
    else dialLoop tries dials.tail c.closeConn.rotate

/-- `ensureConnected`. -/
def ensureConnected (c : RaftClient) (dials : List Bool) : Bool × RaftClient :=
  if c.connected then (true, c) else dialLoop c.servers.length dials c

/-- `execute` after `sendOnce` has failed. -/
def afterFailure (c : RaftClient) : RaftClient := c.closeConn.rotate

/-- The answers after which `execute` tries again. -/
def retryable (resp : Bytes) : Bool :=
  (ascii "NOT_LEADER").isPrefixOf resp || (ascii "UNKNOWN_LEADER").isPrefixOf resp ||
    (ascii "ERR: commit timeout").isPrefixOf resp

/-- `execute` after `sendOnce` has brought an answer to try again on. -/
def afterAnswer (c : RaftClient) (resp : Bytes) : RaftClient :=
  if (ascii "NOT_LEADER").isPrefixOf resp then
    let target := match resp.idxOf? 61 with       -- the '=' of "leader=N"
      | none => none
      | some eq => c.indexForId (strtoull (resp.drop (eq + 1)))
    match target with
    | some t => { c.closeConn with current := t }
    | none => c.closeConn.rotate
  else c.closeConn.rotate

end RaftClient

/-- `MAX_TRIES`. -/
def maxTries : ℕ := 20

/-! ## Processes -/

/-- Where a process stands in `execute`. -/
inductive Task
  /-- no call is going on -/
  | idle
  /-- at the head of the loop -/
  | trying (request : Request) (attempt : ℕ)
  /-- inside `sendOnce` -/
  | awaiting (request : Request) (attempt : ℕ)
  deriving DecidableEq, Repr

/-- A process that runs the client program. -/
structure Session where
  client : RaftClient
  /-- the life of the server at the other end of the connection -/
  boot : ℕ
  /-- how many calls of `execute` were made; the last one has this number -/
  calls : ℕ
  task : Task
  deriving DecidableEq, Repr

/-- The loop of `execute` goes on, or is at its end. -/
def Session.retry (s : Session) (client : RaftClient) (request : Request) (attempt : ℕ) : Session :=
  { s with
    client := client
    task := if attempt + 1 < maxTries then .trying request (attempt + 1) else .idle }

/-- An attempt: who makes it, in which of its calls, and how many came before in this call. -/
structure Tag where
  client : ℕ
  call : ℕ
  attempt : ℕ
  deriving DecidableEq, Repr

/-- A line on its way to a server in a life of it. -/
structure Line where
  tag : Tag
  node : ℕ
  boot : ℕ
  request : Request
  deriving DecidableEq, Repr

/-- A thread of a server that waits in `proposeAndWait` for a client. -/
structure Thread where
  tag : Tag
  node : ℕ
  boot : ℕ
  waiter : Waiter
  deriving DecidableEq, Repr

/-- An answer on its way to the attempt that it is for. -/
structure Response where
  tag : Tag
  text : Bytes
  deriving DecidableEq, Repr

/-- A cluster and its clients. -/
structure World where
  cluster : Cluster
  sessions : ℕ → Session
  lines : List Line
  threads : List Thread
  responses : List Response

/-- What a trace records of clients. -/
inductive ClientEvent
  /-- an attempt connects and sends its line -/
  | attempted (tag : Tag)
  /-- the line of an attempt makes a server append an entry -/
  | appended (tag : Tag) (w : Waiter)
  /-- an attempt fails for its client, which goes on; with the answer that made it go on -/
  | failed (tag : Tag) (resp : Option Bytes)
  /-- the call ends with an answer -/
  | returned (tag : Tag) (resp : Bytes)
  /-- the call ends because no server can be dialled -/
  | unreachable (tag : Tag)
  deriving DecidableEq, Repr

namespace World

/-- What a trace records. -/
inductive Event
  | node (e : ℕ × Node.Event)
  | client (e : ClientEvent)

/-- What happens. -/
inductive Action
  /-- something in the cluster that is not about clients -/
  | cluster (x : Cluster.Action)
  /-- process `k` calls `execute` -/
  | call (k : ℕ) (request : Request)
  /-- process `k` connects and sends its line, which may not get out -/
  | send (k : ℕ) (dials : List Bool) (sent : Bool)
  /-- the connection of process `k` breaks, or it has waited too long -/
  | fail (k : ℕ)
  /-- a process gets an answer -/
  | receive (r : Response)
  /-- a server handles a line, or crashes while it does -/
  | serve (l : Line) (crash : Option (CrashPoint × List CrashPoint))
  /-- a thread of a server stops waiting and answers -/
  | answer (t : Thread) (timedOut : Bool)
  deriving DecidableEq, Repr

end World

/-- The sections of the threads that serve clients. -/
def Cluster.Action.isClients : Cluster.Action → Bool
  | .run _ (.thread (.propose _)) | .run _ (.thread (.wake _ _)) => true
  | .crashIn _ (.thread (.propose _)) _ _ => true
  | _ => false

/-- What a client is told, if an output tells it something. -/
def Output.response? : Output → Option Bytes
  | refused _ answer | answered _ answer _ => some answer.text
  | _ => none

namespace World

/-- The section in which a line is handled. -/
def Action.serving (l : Line) : Option (CrashPoint × List CrashPoint) → Cluster.Action
  | none => .run l.node (.thread (.propose l.request))
  | some (p, retries) => .crashIn l.node (.thread (.propose l.request)) p retries

/-- What an action is to the cluster. -/
def Action.within : Action → Option Cluster.Action
  | cluster x => some x
  | serve l crash => some (Action.serving l crash)
  | answer t timedOut => some (.run t.node (.thread (.wake t.waiter timedOut)))
  | _ => none

/-- The answers among the events of a step of the cluster. -/
def answers (tag : Tag) (evs : List (ℕ × Node.Event)) : List Response :=
  ((Cluster.outputs (evs.map Prod.snd)).filterMap Output.response?).map fun text => ⟨tag, text⟩

/-- The world with another state of process `k`. -/
def setSession (w : World) (k : ℕ) (s : Session) : World :=
  { w with sessions := Function.update w.sessions k s }

/-- Process `k` makes an attempt. -/
def send (w : World) (k : ℕ) (dials : List Bool) (sent : Bool) :
    Option (World × List ClientEvent) :=
  let s := w.sessions k
  match s.task with
  | .trying request attempt =>
    let tag : Tag := ⟨k, s.calls, attempt⟩
    match s.client.ensureConnected dials with
    | (false, client) =>
      some (w.setSession k { s with client := client, task := .idle }, [.unreachable tag])
    | (true, client) =>
      client.servers[client.current]?.map fun node =>
        let boot := if s.client.connected then s.boot else (w.cluster.hosts node).boot
        ({ w.setSession k { s with
              client := client, boot := boot, task := .awaiting request attempt } with
            lines := w.lines ++ if sent then [⟨tag, node, boot, request⟩] else [] },
          [.attempted tag])
  | _ => none

/-- Process `r.tag.client` gets the answer `r` to the attempt that it is making. -/
def receive (w : World) (r : Response) : Option (World × List ClientEvent) :=
  let s := w.sessions r.tag.client
  match s.task with
  | .awaiting request attempt =>
    if r ∈ w.responses ∧ r.tag = ⟨r.tag.client, s.calls, attempt⟩ then
      let w := { w with responses := w.responses.erase r }
      if RaftClient.retryable r.text then
        some (w.setSession r.tag.client (s.retry (s.client.afterAnswer r.text) request attempt),
          [.failed r.tag (some r.text)])
      else some (w.setSession r.tag.client { s with task := .idle }, [.returned r.tag r.text])
    else none
  | _ => none

/-- The entry that the line `l` makes its server append, if it does. -/
def entryOf (w : World) (l : Line) : List Waiter :=
  (((w.cluster.hosts l.node).server.propose l.request).map Prod.fst).toList

/-- A server handles the line `l`.  A thread waits for its entry if the entry does not get committed
at once. -/
def serve (conf : Config) (w : World) (l : Line) (crash : Option (CrashPoint × List CrashPoint)) :
    Option (World × List Event) :=
  if l ∈ w.lines ∧ l.boot = (w.cluster.hosts l.node).boot then
    (Cluster.step conf w.cluster (Action.serving l crash)).map fun r =>
      let waiting := (w.entryOf l).filter fun v => v ∈ (r.1.hosts l.node).waiting
      ({ w with
          cluster := r.1
          lines := w.lines.erase l
          threads := w.threads ++ waiting.map fun v => ⟨l.tag, l.node, l.boot, v⟩
          responses := w.responses ++ answers l.tag r.2 },
        r.2.map .node ++ ((w.entryOf l).map (ClientEvent.appended l.tag)).map .client)
  else none

/-- One step. -/
def step (conf : Config) (w : World) : Action → Option (World × List Event)
  | .cluster x =>
    if x.isClients then none
    else (Cluster.step conf w.cluster x).map fun r => ({ w with cluster := r.1 }, r.2.map .node)
  | .call k request =>
    match (w.sessions k).task with
    | .idle =>
      some (w.setSession k { w.sessions k with
        calls := (w.sessions k).calls + 1, task := .trying request 0 }, [])
    | _ => none
  | .send k dials sent => (w.send k dials sent).map fun r => (r.1, r.2.map .client)
  | .fail k =>
    match (w.sessions k).task with
    | .awaiting request attempt =>
      some (w.setSession k
          ((w.sessions k).retry (w.sessions k).client.afterFailure request attempt),
        [.client (.failed ⟨k, (w.sessions k).calls, attempt⟩ none)])
    | _ => none
  | .receive r => (w.receive r).map fun r => (r.1, r.2.map .client)
  | .serve l crash => w.serve conf l crash
  | .answer t timedOut =>
    if t ∈ w.threads ∧ t.boot = (w.cluster.hosts t.node).boot then
      (Cluster.step conf w.cluster (.run t.node (.thread (.wake t.waiter timedOut)))).map fun r =>
        ({ w with
            cluster := r.1
            threads := w.threads.erase t
            responses := w.responses ++ answers t.tag r.2 },
          r.2.map .node)
    else none

/-- A cluster and processes that have made no call; `servers` are the servers that each of them
was given. -/
def machine (conf : Config) (servers : ℕ → List ℕ) : Machine World Action Event where
  init :=
    { cluster := .initial conf
      sessions := fun k => ⟨⟨servers k, 0, false⟩, 0, 0, .idle⟩
      lines := []
      threads := []
      responses := [] }
  step := step conf

end World

end RaftConsensus
