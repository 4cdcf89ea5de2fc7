import RaftConsensus.Server

/-!
# A node: a server with its disk and its threads

A node is a server together with its files, with what its threads are in the middle of, and
with the number of times it was started.  `Node.handle` is one critical section: the input
says which thread runs and what it got from outside, and the outputs are what the thread
sends or tells its client after it releases the lock.

`Node.step` adds the disk.  A section that runs to its end performs all its storage calls.
A crash may come between sections or inside one, after some of its storage calls and some
of the system calls of the next; then the node starts again from the files as they are at
that moment, and its start may be cut short by further crashes.

* `Node.Section`: the ways through `handle`.
* `crashFiles`: the files at a crash point.
* `TornAt`: the crash point between the `O_TRUNC` open and the write of `updateMetaData`.
-/

namespace RaftConsensus

/-! ## Carrying out effects -/

/-- The system calls of an effect; a mark has none. -/
def Effect.calls : Effect → List Syscall
  | updateMetaData m => RaftConsensus.updateMetaData m
  | writelog e => RaftConsensus.writelog e
  | rewriteLog es => RaftConsensus.rewriteLog es
  | truncateLogFile n => RaftConsensus.truncateLogFile n
  | createMetaData => RaftConsensus.createMetaData
  | createLogs => RaftConsensus.createLogs
  | _ => []

/-- Carry out effects one after the other; `o n` are the outcomes of the calls of effect `n`.
A storage call that fails does not keep the next one from being made. -/
def performWith (o : ℕ → ℕ → Outcome) : List Effect → Files → Files
  | [], files => files
  | e :: es, files => performWith (fun n => o (n + 1)) es (runCalls (o 0) e.calls files).2

/-- Carry out effects when no call fails. -/
def perform (es : List Effect) (files : Files) : Files := performWith (fun _ => noFaults) es files

/-- A moment in the middle of a list of effects: `done` of them are complete, and of the next
one the first `calls` system calls. -/
structure CrashPoint where
  done : ℕ
  calls : ℕ
  deriving DecidableEq, Repr

/-- The files at a crash point. -/
def crashFiles (es : List Effect) (p : CrashPoint) (files : Files) : Files :=
  (runCalls noFaults (((es[p.done]?.map Effect.calls).getD []).take p.calls)
    (perform (es.take p.done) files)).2

/-- The crash falls between the `O_TRUNC` open and the write of an `updateMetaData`. -/
def TornAt (es : List Effect) (p : CrashPoint) : Prop :=
  p.calls = 1 ∧ ∃ m, es[p.done]? = some (.updateMetaData m)

/-! ## Inputs and outputs of a section -/

/-- Which thread runs, with what it got from outside. -/
inductive Input
  | requestVote (args : RequestVoteArgs)
  | appendEntries (args : AppendEntriesArgs)
  | requestVoteReply (electionTerm : ℕ) (reply : RequestVoteReply)
  | appendEntriesReply (peer : ℕ) (args : AppendEntriesArgs) (reply : AppendEntriesReply)
  | contactFailed (peer : ℕ)
  | electionTimeout
  | sendRequestVotes
  | replicate (peer : ℕ)
  | propose (request : Request)
  | wake (w : Waiter) (timedOut : Bool)
  deriving DecidableEq, Repr

/-- What a thread does after it has released the lock. -/
inductive Output
  | requestVoteReply (reply : RequestVoteReply)
  | appendEntriesReply (reply : AppendEntriesReply)
  | requestVotes (args : RequestVoteArgs)
  | appendEntries (peer : ℕ) (args : AppendEntriesArgs)
  /-- a client's request was turned down without an entry -/
  | refused (request : Request) (answer : Answer)
  /-- a client's request was appended -/
  | proposed (w : Waiter)
  /-- a client got its answer, with the server as it was when it answered -/
  | answered (w : Waiter) (answer : Answer) (server : Server)

/-- A node. -/
structure Node where
  server : Server
  files : Files
  /-- the timer thread stands between its candidacy and `sendRequestVoteToAll` -/
  campaigning : Bool
  /-- the client threads that wait in `proposeAndWait` -/
  waiting : List Waiter
  /-- how often the node was started; the threads of an earlier start are gone -/
  boot : ℕ

namespace Node

/-- A client thread evaluates its predicate: it answers, or it waits on. -/
def settle (n : Node) (w : Waiter) : Node × List Output :=
  if n.server.waitOver w then (n, [.proposed w, .answered w (n.server.answer w) n.server])
  else ({ n with waiting := n.waiting ++ [w] }, [.proposed w])

/-- One critical section. -/
def handle (n : Node) : Input → Option (Node × List Output)
  | .requestVote args =>
    let r := n.server.handleRequestVote args
    some ({ n with server := r.2 }, [.requestVoteReply r.1])
  | .appendEntries args =>
    (n.server.handleAppendEntries args).map fun r =>
      ({ n with server := r.2 }, [.appendEntriesReply r.1])
  | .requestVoteReply electionTerm reply =>
    some ({ n with server := n.server.handleRequestVoteReply electionTerm reply }, [])
  | .appendEntriesReply peer args reply =>
    some ({ n with server := n.server.handleAppendEntriesReply peer args reply }, [])
  | .contactFailed peer => some ({ n with server := n.server.contactFailed peer }, [])
  | .electionTimeout =>
    if n.campaigning then none
    else n.server.electionTimeout.map fun r =>
      ({ n with server := r.2, campaigning := r.1 }, [])
  | .sendRequestVotes =>
    if n.campaigning then
      some ({ n with campaigning := false }, [.requestVotes n.server.requestVoteArgs])
    else none
  | .replicate peer =>
    if peer ∈ n.server.peers then
      (n.server.appendEntriesArgs peer).map fun args => (n, [.appendEntries peer args])
    else none
  | .propose request =>
    match n.server.propose request with
    | none => some (n, [.refused request n.server.notLeaderMsg])
    | some (w, s) => some ({ n with server := s }.settle w)
  | .wake w timedOut =>
    -- the thread wakes up; it goes on when its predicate holds or its three seconds are over
    if w ∈ n.waiting ∧ (n.server.waitOver w = true ∨ timedOut = true) then
      some ({ n with waiting := n.waiting.erase w },
        [.answered w (n.server.answer w) n.server])
    else none

/-- **What a section does**, as a relation: one case for each way through `handle`. -/
inductive Section (n : Node) : Input → Node → List Output → Prop
  | requestVote (args : RequestVoteArgs) :
      Section n (.requestVote args) { n with server := (n.server.handleRequestVote args).2 }
        [.requestVoteReply (n.server.handleRequestVote args).1]
  | appendEntries (args : AppendEntriesArgs) (r : AppendEntriesReply × Server)
      (hr : n.server.handleAppendEntries args = some r) :
      Section n (.appendEntries args) { n with server := r.2 } [.appendEntriesReply r.1]
  | requestVoteReply (electionTerm : ℕ) (reply : RequestVoteReply) :
      Section n (.requestVoteReply electionTerm reply)
        { n with server := n.server.handleRequestVoteReply electionTerm reply } []
  | appendEntriesReply (peer : ℕ) (args : AppendEntriesArgs) (reply : AppendEntriesReply) :
      Section n (.appendEntriesReply peer args reply)
        { n with server := n.server.handleAppendEntriesReply peer args reply } []
  | contactFailed (peer : ℕ) :
      Section n (.contactFailed peer) { n with server := n.server.contactFailed peer } []
  | electionTimeout (r : Bool × Server) (hr : n.server.electionTimeout = some r) :
      Section n .electionTimeout { n with server := r.2, campaigning := r.1 } []
  | sendRequestVotes (hcamp : n.campaigning = true) :
      Section n .sendRequestVotes { n with campaigning := false }
        [.requestVotes n.server.requestVoteArgs]
  | replicate (peer : ℕ) (args : AppendEntriesArgs) (hpeer : peer ∈ n.server.peers)
      (hargs : n.server.appendEntriesArgs peer = some args) :
      Section n (.replicate peer) n [.appendEntries peer args]
  | refused (request : Request) (hp : n.server.propose request = none) :
      Section n (.propose request) n [.refused request n.server.notLeaderMsg]
  | proposed (request : Request) (w : Waiter) (s : Server)
      (hp : n.server.propose request = some (w, s)) :
      Section n (.propose request) { n with server := s, waiting := n.waiting ++ [w] } [.proposed w]
  | atOnce (request : Request) (w : Waiter) (s : Server)
      (hp : n.server.propose request = some (w, s)) :
      Section n (.propose request) { n with server := s }
        [.proposed w, .answered w (s.answer w) s]
  | wake (w : Waiter) (timedOut : Bool) (hw : w ∈ n.waiting) :
      Section n (.wake w timedOut) { n with waiting := n.waiting.erase w }
        [.answered w (n.server.answer w) n.server]

theorem handle_section {n m : Node} {x : Input} {os : List Output}
    (h : n.handle x = some (m, os)) : Section n x m os := by
  rcases x with args | args | ⟨t, reply⟩ | ⟨peer, args, reply⟩ | peer | _ | _ | peer | request |
    ⟨w, timedOut⟩ <;> rw [handle] at h
  · obtain ⟨rfl, rfl⟩ := Prod.mk.inj (Option.some.inj h)
    exact .requestVote args
  · obtain ⟨r, hr, heq⟩ := Option.map_eq_some_iff.mp h
    obtain ⟨rfl, rfl⟩ := Prod.mk.inj heq
    exact .appendEntries args r hr
  · obtain ⟨rfl, rfl⟩ := Prod.mk.inj (Option.some.inj h)
    exact .requestVoteReply t reply
  · obtain ⟨rfl, rfl⟩ := Prod.mk.inj (Option.some.inj h)
    exact .appendEntriesReply peer args reply
  · obtain ⟨rfl, rfl⟩ := Prod.mk.inj (Option.some.inj h)
    exact .contactFailed peer
  · split at h
    · exact absurd h (by simp)
    · obtain ⟨r, hr, heq⟩ := Option.map_eq_some_iff.mp h
      obtain ⟨rfl, rfl⟩ := Prod.mk.inj heq
      exact .electionTimeout r hr
  · split at h
    · next hcamp =>
      obtain ⟨rfl, rfl⟩ := Prod.mk.inj (Option.some.inj h)
      exact .sendRequestVotes hcamp
    · exact absurd h (by simp)
  · split at h
    · next hpeer =>
      obtain ⟨args, hargs, heq⟩ := Option.map_eq_some_iff.mp h
      obtain ⟨rfl, rfl⟩ := Prod.mk.inj heq
      exact .replicate peer args hpeer hargs
    · exact absurd h (by simp)
  · split at h
    · next hp =>
      obtain ⟨rfl, rfl⟩ := Prod.mk.inj (Option.some.inj h)
      exact .refused request hp
    · next w s hp =>
      rw [settle] at h
      split at h
      · obtain ⟨rfl, rfl⟩ := Prod.mk.inj (Option.some.inj h)
        exact .atOnce request w s hp
      · obtain ⟨rfl, rfl⟩ := Prod.mk.inj (Option.some.inj h)
        exact .proposed request w s hp
  · split at h
    · next hw =>
      obtain ⟨rfl, rfl⟩ := Prod.mk.inj (Option.some.inj h)
      exact .wake w timedOut hw.1
    · exact absurd h (by simp)

/-! ## Sections and crashes -/

/-- What a trace records. -/
inductive Event
  | effect (e : Effect)
  | output (o : Output)

/-- Carry out what the section has collected. -/
def flush (n : Node) : Node :=
  { n with server := { n.server with effects := [] }, files := perform n.server.effects n.files }

/-- The effects of a start on given files: `initStorage`, then `recover`. -/
def bootEffects (nodeId : ℕ) (peers : List ℕ) (files : Files) : List Effect :=
  initStorage files ++ (recover nodeId peers (perform (initStorage files) files)).effects

/-- A node just started on given files. -/
def start (nodeId : ℕ) (peers : List ℕ) (files : Files) (boot : ℕ) : Node :=
  { server :=
      { recover nodeId peers (perform (initStorage files) files) with
        running := true, effects := [] }
    files := perform (bootEffects nodeId peers files) files
    campaigning := false
    waiting := []
    boot := boot }

/-- A start that crashes at each of the given points before it succeeds: the effects that took
place, and the files from which the successful start begins. -/
def failedStarts (nodeId : ℕ) (peers : List ℕ) : List CrashPoint → Files → List Effect × Files
  | [], files => ([], files)
  | p :: ps, files =>
    let es := bootEffects nodeId peers files
    let r := failedStarts nodeId peers ps (crashFiles es p files)
    (es.take p.done ++ r.1, r.2)

/-- The node crashes with given files and is started again. -/
def restart (n : Node) (retries : List CrashPoint) (files : Files) : Node × List Effect :=
  let r := failedStarts n.server.nodeId n.server.peers retries files
  (start n.server.nodeId n.server.peers r.2 (n.boot + 1),
    r.1 ++ bootEffects n.server.nodeId n.server.peers r.2)

/-- What happens to a node. -/
inductive Action
  /-- a critical section runs to its end -/
  | run (x : Input)
  /-- the node crashes between two sections -/
  | crash (retries : List CrashPoint)
  /-- the node crashes inside a section -/
  | crashIn (x : Input) (p : CrashPoint) (retries : List CrashPoint)
  deriving DecidableEq, Repr

/-- One step of a node, with what a trace records of it. -/
def step (n : Node) : Action → Option (Node × List Event)
  | .run x =>
    (n.handle x).map fun r =>
      (r.1.flush, r.1.server.effects.map .effect ++ r.2.map .output)
  | .crash retries =>
    let r := n.restart retries n.files
    some (r.1, r.2.map .effect)
  | .crashIn x p retries =>
    (n.handle x).map fun r =>
      let es := r.1.server.effects
      let r' := n.restart retries (crashFiles es p n.files)
      (r'.1, (es.take p.done ++ r'.2).map .effect)

end Node

end RaftConsensus
