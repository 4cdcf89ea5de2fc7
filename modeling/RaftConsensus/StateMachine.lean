import RaftConsensus.Log
import Mathlib.Data.List.AList

/-!
# The key-value state machine (`statemachine.cpp`)

The `unordered_map` of the source is an association list with distinct keys.  `replay` is
the state after applying the commands of a list of entries in order, from the empty map.
-/

namespace RaftConsensus

/-- `class KVStateMachine`. -/
structure KVStateMachine where
  store : AList (fun _ : Bytes => Bytes)

namespace KVStateMachine

/-- The state of a machine that has applied nothing. -/
def empty : KVStateMachine := ⟨∅⟩

/-- `apply`: PUT is 1, DELETE is 2, everything else does nothing. -/
def apply (m : KVStateMachine) (cmd : Command) : KVStateMachine :=
  if cmd.operation = 1 then ⟨m.store.insert cmd.key cmd.value⟩
  else if cmd.operation = 2 then ⟨m.store.erase cmd.key⟩
  else m

/-- `get`: the value of a key, empty if there is none. -/
def get (m : KVStateMachine) (key : Bytes) : Bytes := (m.store.lookup key).getD []

/-- `has`. -/
def has (m : KVStateMachine) (key : Bytes) : Bool := (m.store.lookup key).isSome

/-- The state after applying the entries of a log in order. -/
def replay (entries : List LogEntry) : KVStateMachine :=
  entries.foldl (fun m e => m.apply e.command) empty

@[simp] theorem replay_nil : replay [] = empty := rfl

end KVStateMachine

end RaftConsensus
