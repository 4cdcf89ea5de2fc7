import Mathlib.Data.Finset.Card
import Mathlib.Data.Set.Insert
import Mathlib.Logic.Function.Basic

/-!
# Leader-based log replication, abstractly

The protocol that this library describes has no messages, no disk and no threads.
What it keeps instead is the *history* that its safety argument speaks about: who
voted for whom in which term and with which log in hand, who won a term and with
which log, everything the winner of a term ever held in that term, how far a node
has acknowledged the log of a term, and which prefixes have been committed.

An implementation is connected to this model by a simulation: each of its critical
sections is a few steps here.  Everything is generic in the type `ι` of nodes, in
the type `ε` of log entries (of which only the term is looked at) and in the notion
of quorum.

The log of a term is append-only.  `leaderLog t` never loses an entry, and every log
in the system is made of prefixes of such logs, so most of the argument is about one
list being a prefix of another.
-/

namespace RaftConsensus
namespace Protocol

/-- Log entries carry the term in which they were created. -/
class Termed (ε : Type*) where
  term : ε → ℕ

open Termed (term)

variable {ι ε : Type*}

/-- The state of the protocol, history included. -/
structure State (ι ε : Type*) where
  /-- the current term of a node -/
  term : ι → ℕ
  /-- the log of a node -/
  log : ι → List ε
  /-- the candidate a node voted for in a term -/
  voted : ι → ℕ → Option ι
  /-- the log a node had when it voted in a term -/
  voteLog : ι → ℕ → List ε
  /-- the node elected in a term -/
  leader : ℕ → Option ι
  /-- the log of the node elected in a term, at its election -/
  electLog : ℕ → List ε
  /-- the longest log the leader of a term had in that term -/
  leaderLog : ℕ → List ε
  /-- how much of the leader's log of a term a node has acknowledged in that term -/
  acked : ι → ℕ → ℕ
  /-- the commits `(t, n)`: the leader of `t` committed its first `n` entries -/
  commits : Set (ℕ × ℕ)
  /-- the commit index of a node -/
  commit : ι → ℕ

/-- The term of the last entry, `0` for the empty log. -/
def lastTerm [Termed ε] (l : List ε) : ℕ := (l.getLast?.map term).getD 0

/-- `l` is at least as up to date as `v`: the later last term wins, and on equal last
terms the longer log does. -/
def UpToDate [Termed ε] (l v : List ε) : Prop :=
  lastTerm v < lastTerm l ∨ lastTerm l = lastTerm v ∧ v.length ≤ l.length

theorem UpToDate.refl [Termed ε] (l : List ε) : UpToDate l l := Or.inr ⟨rfl, le_rfl⟩

namespace State

variable [DecidableEq ι]

/-- Change a function of two arguments at one point. -/
def set₂ {α β γ : Type*} [DecidableEq α] [DecidableEq β] (f : α → β → γ) (a : α) (b : β)
    (c : γ) : α → β → γ :=
  Function.update f a (Function.update (f a) b c)

theorem set₂_apply {α β γ : Type*} [DecidableEq α] [DecidableEq β] (f : α → β → γ) (a x : α)
    (b y : β) (c : γ) : set₂ f a b c x y = if x = a ∧ y = b then c else f x y := by
  unfold set₂
  by_cases hx : x = a
  · subst hx
    by_cases hy : y = b
    · simp [hy]
    · simp [hy]
  · simp [hx]

/-- Node `i` adopts the later term `t`. -/
def newTerm (s : State ι ε) (i : ι) (t : ℕ) : State ι ε :=
  { s with term := Function.update s.term i t }

/-- Node `i` votes for `c` in its current term. -/
def vote (s : State ι ε) (i c : ι) : State ι ε :=
  { s with
    voted := set₂ s.voted i (s.term i) (some c)
    voteLog := set₂ s.voteLog i (s.term i) (s.log i) }

/-- Node `c` wins its current term. -/
def elect (s : State ι ε) (c : ι) : State ι ε :=
  { s with
    leader := Function.update s.leader (s.term c) (some c)
    electLog := Function.update s.electLog (s.term c) (s.log c)
    leaderLog := Function.update s.leaderLog (s.term c) (s.log c) }

/-- The leader `i` of its term appends an entry. -/
def append (s : State ι ε) (i : ι) (e : ε) : State ι ε :=
  { s with
    log := Function.update s.log i (s.log i ++ [e])
    leaderLog := Function.update s.leaderLog (s.term i) (s.log i ++ [e]) }

open Classical in
/-- What a log becomes when a prefix `L` of the leader's log is accepted: it stays if it
already extends `L`, and is `L` otherwise. -/
noncomputable def adopt (l L : List ε) : List ε := if L <+: l then l else L

/-- Node `i` accepts the prefix `L` of the log of its term's leader and acknowledges it. -/
noncomputable def accept (s : State ι ε) (i : ι) (L : List ε) : State ι ε :=
  { s with
    log := Function.update s.log i (adopt (s.log i) L)
    acked := set₂ s.acked i (s.term i) (max (s.acked i (s.term i)) L.length) }

/-- The leader of `t` commits its first `n` entries. -/
def addCommit (s : State ι ε) (t n : ℕ) : State ι ε :=
  { s with commits := insert (t, n) s.commits }

/-- Node `i` raises its commit index. -/
def learn (s : State ι ε) (i : ι) (n : ℕ) : State ι ε :=
  { s with commit := Function.update s.commit i n }

omit [DecidableEq ι] in
/-- Node `v` has acknowledged the first `n` entries of the log of term `t`.  The leader of
a term acknowledges all of its own log. -/
def Acked (s : State ι ε) (v : ι) (t n : ℕ) : Prop :=
  n ≤ (s.leaderLog t).length ∧ (n ≤ s.acked v t ∧ 0 < n ∨ s.leader t = some v)

end State

open State

/-- The start: term `0` everywhere, and no history. -/
def State.initial : State ι ε where
  term _ := 0
  log _ := []
  voted _ _ := none
  voteLog _ _ := []
  leader _ := none
  electLog _ := []
  leaderLog _ := []
  acked _ _ := 0
  commits := ∅
  commit _ := 0

/-- The steps of the protocol, for a notion `Q` of quorum. -/
inductive Step [DecidableEq ι] [Termed ε] (Q : Finset ι → Prop) :
    State ι ε → State ι ε → Prop
  | newTerm (s : State ι ε) (i : ι) (t : ℕ) (hlt : s.term i < t) : Step Q s (s.newTerm i t)
  | vote (s : State ι ε) (i c : ι) (hnone : s.voted i (s.term i) = none) :
      Step Q s (s.vote i c)
  | elect (s : State ι ε) (c : ι) (V : Finset ι) (hV : Q V)
      (hnone : s.leader (s.term c) = none)
      (hvotes : ∀ v ∈ V, s.voted v (s.term c) = some c ∧
        UpToDate (s.log c) (s.voteLog v (s.term c))) :
      Step Q s (s.elect c)
  | append (s : State ι ε) (i : ι) (e : ε) (hlead : s.leader (s.term i) = some i)
      (he : term e = s.term i) : Step Q s (s.append i e)
  | accept (s : State ι ε) (i : ι) (L : List ε) (hL : L <+: s.leaderLog (s.term i)) :
      Step Q s (s.accept i L)
  | addCommit (s : State ι ε) (t n : ℕ) (V : Finset ι) (hV : Q V)
      (hterm : ∃ e, (s.leaderLog t)[n]? = some e ∧ term e = t)
      (hacks : ∀ v ∈ V, s.Acked v t (n + 1)) : Step Q s (s.addCommit t (n + 1))
  | learn (s : State ι ε) (i : ι) (t m n : ℕ) (hc : (t, m) ∈ s.commits) (ht : t ≤ s.term i)
      (hn : n ≤ m) (heq : (s.log i).take n = (s.leaderLog t).take n) : Step Q s (s.learn i n)

/-- The states the protocol can reach. -/
inductive Reachable [DecidableEq ι] [Termed ε] (Q : Finset ι → Prop) : State ι ε → Prop
  | initial : Reachable Q State.initial
  | step {s s' : State ι ε} : Reachable Q s → Step Q s s' → Reachable Q s'

end Protocol
end RaftConsensus
