import RaftConsensus.Protocol.LeaderCompleteness

/-!
# Steps are local

Each step of the protocol belongs to one node.  `Confined i s s'` says what it leaves
alone: term, log, votes and commit index of every other node, and the elections and commits
of terms that `i` does not lead.  A simulation proof uses it for the nodes that do not move.

* `Confined.term_ne_of_commit`: the entry that a leader appends is past all that is
  committed, or another one has been committed in its place.
-/

namespace RaftConsensus
namespace Protocol

open Termed (term)
open State

variable {ι ε : Type*} [Termed ε] [DecidableEq ι] {s s' s'' : State ι ε} {i : ι}

/-- From `s` to `s'` history has grown, and only node `i` has moved. -/
structure Confined (i : ι) (s s' : State ι ε) : Prop where
  grows : Grows s s'
  term : ∀ j, j ≠ i → s'.term j = s.term j
  log : ∀ j, j ≠ i → s'.log j = s.log j
  commit : ∀ j, j ≠ i → s'.commit j = s.commit j
  voted : ∀ j, j ≠ i → s'.voted j = s.voted j
  voteLog : ∀ j, j ≠ i → s'.voteLog j = s.voteLog j
  leader : ∀ t j, j ≠ i → s'.leader t = some j → s.leader t = some j
  commits : ∀ t n, (t, n) ∈ s'.commits → (t, n) ∈ s.commits ∨ s'.leader t = some i

omit [Termed ε] [DecidableEq ι] in
theorem Confined.refl (i : ι) (s : State ι ε) : Confined i s s :=
  ⟨Grows.refl s, fun _ _ => rfl, fun _ _ => rfl, fun _ _ => rfl, fun _ _ => rfl, fun _ _ => rfl,
    fun _ _ _ h => h, fun _ _ h => Or.inl h⟩

omit [Termed ε] [DecidableEq ι] in
theorem Confined.trans (h : Confined i s s') (h' : Confined i s' s'') : Confined i s s'' where
  grows := h.grows.trans h'.grows
  term j hj := (h'.term j hj).trans (h.term j hj)
  log j hj := (h'.log j hj).trans (h.log j hj)
  commit j hj := (h'.commit j hj).trans (h.commit j hj)
  voted j hj := (h'.voted j hj).trans (h.voted j hj)
  voteLog j hj := (h'.voteLog j hj).trans (h.voteLog j hj)
  leader t j hj hl := h.leader t j hj (h'.leader t j hj hl)
  commits t n hc := by
    rcases h'.commits t n hc with hc | hl
    · exact (h.commits t n hc).imp_right fun hl => (h'.grows.leader hl).1
    · exact Or.inr hl

variable {Q : Finset ι → Prop}

theorem Confined.newTerm (h : LogInv s) {t : ℕ} (hlt : s.term i < t) :
    Confined i s (s.newTerm i t) where
  grows := (Step.newTerm (Q := fun _ => True) s i t hlt).grows h
  term j hj := by simp [State.newTerm, hj]
  log _ _ := rfl
  commit _ _ := rfl
  voted _ _ := rfl
  voteLog _ _ := rfl
  leader _ _ _ hl := hl
  commits _ _ hc := Or.inl hc

theorem Confined.vote (h : LogInv s) {c : ι} (hnone : s.voted i (s.term i) = none) :
    Confined i s (s.vote i c) where
  grows := (Step.vote (Q := fun _ => True) s i c hnone).grows h
  term _ _ := rfl
  log _ _ := rfl
  commit _ _ := rfl
  voted j hj := by simp [State.vote, set₂, hj]
  voteLog j hj := by simp [State.vote, set₂, hj]
  leader _ _ _ hl := hl
  commits _ _ hc := Or.inl hc

theorem Confined.elect (h : LogInv s) {V : Finset ι} (hnone : s.leader (s.term i) = none)
    (hvotes : ∀ v ∈ V, s.voted v (s.term i) = some i ∧
      UpToDate (s.log i) (s.voteLog v (s.term i))) : Confined i s (s.elect i) where
  grows := (Step.elect (Q := fun _ => True) s i V trivial hnone hvotes).grows h
  term _ _ := rfl
  log _ _ := rfl
  commit _ _ := rfl
  voted _ _ := rfl
  voteLog _ _ := rfl
  leader t j hj hl := by
    by_cases ht : t = s.term i
    · subst ht
      simp only [State.elect, Function.update_self, Option.some.injEq] at hl
      exact absurd hl.symm hj
    · simpa [State.elect, ht] using hl
  commits _ _ hc := Or.inl hc

theorem Confined.append (h : LogInv s) {e : ε} (hlead : s.leader (s.term i) = some i)
    (he : Termed.term e = s.term i) : Confined i s (s.append i e) where
  grows := (Step.append (Q := fun _ => True) s i e hlead he).grows h
  term _ _ := rfl
  log j hj := by simp [State.append, hj]
  commit _ _ := rfl
  voted _ _ := rfl
  voteLog _ _ := rfl
  leader _ _ _ hl := hl
  commits _ _ hc := Or.inl hc

theorem Confined.accept (h : LogInv s) {L : List ε} (hL : L <+: s.leaderLog (s.term i)) :
    Confined i s (s.accept i L) where
  grows := (Step.accept (Q := fun _ => True) s i L hL).grows h
  term _ _ := rfl
  log j hj := by simp [State.accept, hj]
  commit _ _ := rfl
  voted _ _ := rfl
  voteLog _ _ := rfl
  leader _ _ _ hl := hl
  commits _ _ hc := Or.inl hc

omit [Termed ε] [DecidableEq ι] in
theorem Confined.addCommit {t : ℕ} (hlead : s.leader t = some i) (n : ℕ) :
    Confined i s (s.addCommit t n) where
  grows := { Grows.refl s with commits := fun hc => Set.mem_insert_of_mem _ hc }
  term _ _ := rfl
  log _ _ := rfl
  commit _ _ := rfl
  voted _ _ := rfl
  voteLog _ _ := rfl
  leader _ _ _ hl := hl
  commits u m hc := by
    rcases Set.mem_insert_iff.mp hc with heq | hc
    · rw [(Prod.mk.inj heq).1]
      exact Or.inr hlead
    · exact Or.inl hc

omit [Termed ε] in
theorem Confined.learn (i : ι) (s : State ι ε) (n : ℕ) : Confined i s (s.learn i n) where
  grows := { Grows.refl s with }
  term _ _ := rfl
  log _ _ := rfl
  commit j hj := by simp [State.learn, hj]
  voted _ _ := rfl
  voteLog _ _ := rfl
  leader _ _ _ hl := hl
  commits _ _ hc := Or.inl hc

omit [DecidableEq ι] in
/-- **A leader's new entry is past all that is committed**: where a longer log has been committed,
it holds another entry at this place. -/
theorem Confined.term_ne_of_commit (hc : Confined i s s') (h : LogInv s) (h' : LogInv s')
    (hs : SafetyInv Q s) (hs' : SafetyInv Q s') (hlead : s.leader (s.term i) = some i)
    (hterm : s'.term i = s.term i) {e : ε} (hlog : s'.log i = s.log i ++ [e]) {t n : ℕ}
    (hn : (t, n) ∈ s'.commits) (hlt : (s.log i).length + 1 < n) :
    ∃ x, (s'.leaderLog t)[(s.log i).length]? = some x ∧ Termed.term x ≠ s.term i := by
  obtain ⟨m, y, rfl, hm, -⟩ := hs'.committed hn
  have hlen := (List.getElem?_eq_some_iff.mp hm).1
  obtain ⟨x, hx⟩ : ∃ x, (s'.leaderLog t)[(s.log i).length]? = some x :=
    ⟨_, List.getElem?_eq_getElem (by omega)⟩
  refine ⟨x, hx, fun heq => ?_⟩
  have hlead' := (hc.grows.leader hlead).1
  have hle : s.term i ≤ t := heq ▸ h'.leader_term (List.mem_of_getElem? hx)
  rcases eq_or_lt_of_le hle with rfl | hlt'
  · -- the log of its own term ends with the new entry
    have hown := h'.leader_log i (hterm.symm ▸ hlead')
    rw [hterm] at hown
    rw [← hown, hlog, List.length_append, List.length_singleton] at hlen
    omega
  · -- a later leader is another node, and its log has a part of the log of this term only
    rcases hc.commits t (m + 1) hn with hold | hi
    · obtain ⟨m', y', hm', hy', -⟩ := hs.committed hold
      have hlen' := (List.getElem?_eq_some_iff.mp hy').1
      obtain ⟨x', hx'⟩ : ∃ x', (s.leaderLog t)[(s.log i).length]? = some x' :=
        ⟨_, List.getElem?_eq_getElem (by omega)⟩
      obtain rfl : x' = x := Option.some.inj ((hc.grows.getElem?_leaderLog hx').symm.trans hx)
      have hpre := (h.leader_matched t _ _ hx').length_le
      rw [heq, ← h.leader_log i hlead, List.length_take] at hpre
      omega
    · have := h'.leader_le hi
      omega

end Protocol
end RaftConsensus
