import Mathlib.Data.List.Basic

/-!
# What a socket hands over

A call of `recv` or of `send` need not do all that it is asked for: it may be interrupted, it may time
out, and it may take or bring a part only.  A *schedule* is what the calls of one thread meet, one
after the other.

Which faults a thread survives is up to the thread: `again` are those after which it calls once more.
`arrived again` is the stream that a thread gets to see in this way, and what a reader makes of a
schedule should depend on this stream only.
-/

namespace RaftConsensus

/-- Why a call brings nothing. -/
inductive Fault
  | interrupted
  | timedOut
  | broken
  deriving DecidableEq, Repr

/-- What a call of `recv` returns; it brings no data at the end of the stream. -/
inductive Recv (β : Type*)
  | fault (f : Fault)
  | received (bytes : List β)
  deriving DecidableEq, Repr

variable {β : Type*} {again : Fault → Bool}

/-- The stream that a schedule brings, up to its end or to a fault that is not survived. -/
def arrived (again : Fault → Bool) : List (Recv β) → List β
  | [] => []
  | .fault f :: rs => if again f then arrived again rs else []
  | .received bytes :: rs => if bytes = [] then [] else bytes ++ arrived again rs

@[simp] theorem arrived_nil : arrived again ([] : List (Recv β)) = [] := rfl

theorem arrived_again {f : Fault} (h : again f = true) (rs : List (Recv β)) :
    arrived again (.fault f :: rs) = arrived again rs := if_pos h

theorem arrived_fault {f : Fault} (h : again f = false) (rs : List (Recv β)) :
    arrived again (.fault f :: rs) = [] := if_neg (by simp [h])

theorem arrived_end (rs : List (Recv β)) : arrived again (.received [] :: rs) = [] := rfl

theorem arrived_received {bytes : List β} (h : bytes ≠ []) (rs : List (Recv β)) :
    arrived again (.received bytes :: rs) = bytes ++ arrived again rs := if_neg h

end RaftConsensus
