import RaftConsensus.Protocol.State

/-!
# Log matching

Every log in the system is *matched*: cut after any of its entries, it is a prefix of
the log of the term of that entry.  Two matched logs with entries of one term at one
position are therefore equal up to that position, which is the log matching property.

The invariant `LogInv` carries matchedness through the steps together with the
bookkeeping it needs: an unelected term has no log, the log of a term starts with the
log its leader was elected with and goes on with entries of that term only, and a node
that leads its current term still has all of that term's log.

No step needs to know *why* an accepted prefix fits the log it is accepted into:
`adopt` either keeps the old log or replaces it by a prefix of a leader's log, and both
are matched.
-/

namespace RaftConsensus
namespace Protocol

open Termed (term)
open State

variable {ι ε : Type*} [Termed ε] {s s' : State ι ε}

/-! ## Prefixes of leader logs -/

/-- Cut after any of its entries, `l` is a prefix of the log of that entry's term. -/
def Matched (s : State ι ε) (l : List ε) : Prop :=
  ∀ k e, l[k]? = some e → l.take (k + 1) <+: s.leaderLog (term e)

theorem Matched.nil : Matched s [] := by
  intro k e h
  simp at h

/-- A prefix of a matched log is matched. -/
theorem Matched.of_isPrefix {l l' : List ε} (h : Matched s l') (hl : l <+: l') : Matched s l := by
  intro k e hk
  have hlt : k < l.length := (List.getElem?_eq_some_iff.mp hk).1
  have hk' : l'[k]? = some e := by
    obtain ⟨r, rfl⟩ := hl
    rw [List.getElem?_append_left hlt, hk]
  have htake : l.take (k + 1) = l'.take (k + 1) := by
    obtain ⟨r, rfl⟩ := hl
    rw [List.take_append_of_le_length (by omega)]
  rw [htake]
  exact h k e hk'

/-- Matchedness survives when leader logs grow. -/
theorem Matched.mono {l : List ε} (h : Matched s l)
    (hgrow : ∀ t, s.leaderLog t <+: s'.leaderLog t) : Matched s' l :=
  fun k e hk => (h k e hk).trans (hgrow _)

/-- A matched log may grow by an entry with which it is part of the log of that entry's term. -/
theorem Matched.concat {l : List ε} {e : ε} (h : Matched s l)
    (he : l ++ [e] <+: s.leaderLog (term e)) : Matched s (l ++ [e]) := by
  intro k x hk
  rcases lt_or_ge k l.length with hlt | hge
  · rw [List.getElem?_append_left hlt] at hk
    rw [List.take_append_of_le_length (by omega)]
    exact h k x hk
  · rw [List.getElem?_append_right hge] at hk
    obtain rfl : x = e := List.mem_singleton.mp (List.mem_of_getElem? hk)
    exact (List.take_prefix _ _).trans he

/-- **Log matching.**  Two matched logs with entries of one term at position `k` agree up to
and including `k`. -/
theorem Matched.take_eq {l l' : List ε} (h : Matched s l) (h' : Matched s l') {k : ℕ}
    {e e' : ε} (hk : l[k]? = some e) (hk' : l'[k]? = some e') (ht : term e = term e') :
    l.take (k + 1) = l'.take (k + 1) := by
  have h1 := h k e hk
  have h2 := h' k e' hk'
  rw [← ht] at h2
  have hlen : k < l.length := (List.getElem?_eq_some_iff.mp hk).1
  have hlen' : k < l'.length := (List.getElem?_eq_some_iff.mp hk').1
  refine (List.prefix_of_prefix_length_le h1 h2 ?_).eq_of_length_le ?_ <;>
    simp only [List.length_take] <;> omega

/-! ## The invariant -/

/-- Elections, votes and logs fit together. -/
structure LogInv (s : State ι ε) : Prop where
  vote_le : ∀ {v t c}, s.voted v t = some c → t ≤ s.term v
  leader_le : ∀ {t c}, s.leader t = some c → t ≤ s.term c
  unelected : ∀ {t}, s.leader t = none → s.leaderLog t = [] ∧ s.electLog t = []
  electLog_isPrefix : ∀ t, s.electLog t <+: s.leaderLog t
  elect_term : ∀ {t e}, e ∈ s.electLog t → term e < t
  own_term : ∀ {t e}, e ∈ (s.leaderLog t).drop (s.electLog t).length → term e = t
  log_matched : ∀ i, Matched s (s.log i)
  vote_matched : ∀ v t, Matched s (s.voteLog v t)
  leader_matched : ∀ t, Matched s (s.leaderLog t)
  leader_log : ∀ i, s.leader (s.term i) = some i → s.log i = s.leaderLog (s.term i)
  log_term : ∀ {i e}, e ∈ s.log i → term e ≤ s.term i
  acked_le : ∀ v t, s.acked v t ≤ (s.leaderLog t).length
  acked_term : ∀ {v t}, 0 < s.acked v t → t ≤ s.term v

theorem LogInv.initial : LogInv (State.initial : State ι ε) := by
  constructor <;> simp [State.initial, Matched]

section Consequences

variable (h : LogInv s)

include h

/-- The entries of the log of term `t` are of term `t` or earlier. -/
theorem LogInv.leader_term {t : ℕ} {e : ε} (he : e ∈ s.leaderLog t) : term e ≤ t := by
  rw [← List.take_append_drop (s.electLog t).length (s.leaderLog t), List.mem_append] at he
  rcases he with he | he
  · rw [← List.prefix_iff_eq_take.mp (h.electLog_isPrefix t)] at he
    exact (h.elect_term he).le
  · exact (h.own_term he).le

/-- An entry that is in a matched log was created by the leader of its term. -/
theorem LogInv.exists_leader {l : List ε} (hl : Matched s l) {e : ε} (he : e ∈ l) :
    ∃ c, s.leader (term e) = some c := by
  obtain ⟨k, hk⟩ := List.mem_iff_getElem?.mp he
  have hp := hl k e hk
  rcases hc : s.leader (term e) with _ | c
  · have hlen : k < l.length := (List.getElem?_eq_some_iff.mp hk).1
    rw [(h.unelected hc).1] at hp
    have := hp.length_le
    rw [List.length_take, List.length_nil] at this
    omega
  · exact ⟨c, rfl⟩

/-- Terms do not decrease along a matched log. -/
theorem LogInv.term_le_of_le {l : List ε} (hl : Matched s l) {j k : ℕ} {e e' : ε}
    (hj : l[j]? = some e) (hk : l[k]? = some e') (hjk : j ≤ k) : term e ≤ term e' := by
  refine h.leader_term ((hl k e' hk).subset ?_)
  refine List.mem_of_getElem? (i := j) ?_
  rw [List.getElem?_take_of_lt (by omega), hj]

/-- A prefix of the log of `t` that holds an entry of term `t` contains the log the leader
was elected with. -/
theorem LogInv.electLog_prefix_of_term {t k : ℕ} {l : List ε} (hl : l <+: s.leaderLog t) {e : ε}
    (hk : l[k]? = some e) (he : term e = t) : s.electLog t <+: l := by
  have hlen : k < l.length := (List.getElem?_eq_some_iff.mp hk).1
  refine List.prefix_of_prefix_length_le (h.electLog_isPrefix t) hl ?_
  by_contra hshort
  have hlt : k < (s.electLog t).length := by omega
  have hl' : l <+: s.electLog t :=
    List.prefix_of_prefix_length_le hl (h.electLog_isPrefix t) (by omega)
  have hmem : e ∈ s.electLog t := hl'.subset (List.mem_of_getElem? hk)
  have := h.elect_term hmem
  omega

end Consequences

/-- The log of the winner holds no entry of the term it wins. -/
theorem LogInv.log_term_lt (h : LogInv s) {c : ι} (hnone : s.leader (s.term c) = none) {e : ε}
    (he : e ∈ s.log c) : term e < s.term c := by
  refine lt_of_le_of_ne (h.log_term he) fun heq => ?_
  obtain ⟨d, hd⟩ := h.exists_leader (h.log_matched c) he
  rw [heq, hnone] at hd
  exact absurd hd (by simp)

/-! ## Adopting a prefix of a leader's log -/

omit [Termed ε] in
/-- An adopted log is the old one or the accepted prefix. -/
theorem adopt_eq_or (l L : List ε) : adopt l L = l ∨ adopt l L = L := by
  unfold adopt
  split
  · exact Or.inl rfl
  · exact Or.inr rfl

omit [Termed ε] in
theorem prefix_adopt (l L : List ε) : L <+: adopt l L := by
  unfold adopt
  split
  · assumption
  · exact List.prefix_rfl

omit [Termed ε] in
/-- What two prefixes of one log share survives adoption: a prefix `C` of the old log stays if
`C` and the accepted prefix are both prefixes of one log. -/
theorem prefix_adopt_of_isPrefix {l L C B : List ε} (hC : C <+: l) (hCB : C <+: B)
    (hLB : L <+: B) : C <+: adopt l L := by
  unfold adopt
  split
  · exact hC
  · next hL =>
    rcases List.prefix_or_prefix_of_prefix hCB hLB with h | h
    · exact h
    · exact absurd (h.trans hC) hL

/-! ## The steps keep the invariant -/

variable [DecidableEq ι] {Q : Finset ι → Prop}

omit [DecidableEq ι] in
theorem leaderLog_elect (h : LogInv s) {c : ι} (hnone : s.leader (s.term c) = none)
    (t : ℕ) : s.leaderLog t <+: (s.elect c).leaderLog t := by
  by_cases ht : t = s.term c
  · subst ht
    rw [(h.unelected hnone).1]
    exact List.nil_prefix
  · simp [State.elect, ht]

theorem leaderLog_append (h : LogInv s) {i : ι} (hlead : s.leader (s.term i) = some i) (e : ε)
    (t : ℕ) : s.leaderLog t <+: (s.append i e).leaderLog t := by
  by_cases ht : t = s.term i
  · subst ht
    simp [State.append, h.leader_log i hlead]
  · simp [State.append, ht]

/-- What a leader appends is of its own term. -/
theorem own_term_append (h : LogInv s) {i : ι} (hlead : s.leader (s.term i) = some i) {e : ε}
    (he : term e = s.term i) {t : ℕ} {x : ε}
    (hx : x ∈ ((s.append i e).leaderLog t).drop (s.electLog t).length) : term x = t := by
  by_cases htc : t = s.term i
  · subst htc
    have hlog := h.leader_log i hlead
    have hle : (s.electLog (s.term i)).length ≤ (s.log i).length := by
      rw [hlog]
      exact (h.electLog_isPrefix _).length_le
    simp only [State.append, Function.update_self] at hx
    rw [List.drop_append_of_le_length hle, List.mem_append] at hx
    rcases hx with hx | hx
    · rw [hlog] at hx
      exact h.own_term hx
    · rw [List.mem_singleton.mp hx, he]
  · simp only [State.append, ne_eq, htc, not_false_eq_true, Function.update_of_ne] at hx
    exact h.own_term hx

theorem LogInv.newTerm (h : LogInv s) {i : ι} {t : ℕ} (hlt : s.term i < t) :
    LogInv (s.newTerm i t) := by
  have hmono : ∀ j, s.term j ≤ (s.newTerm i t).term j := by
    intro j
    by_cases hj : j = i
    · subst hj
      simpa [State.newTerm] using hlt.le
    · simp [State.newTerm, hj]
  exact
    { vote_le := fun hv => (h.vote_le hv).trans (hmono _)
      leader_le := fun hl => (h.leader_le hl).trans (hmono _)
      unelected := h.unelected
      electLog_isPrefix := h.electLog_isPrefix
      elect_term := h.elect_term
      own_term := h.own_term
      log_matched := h.log_matched
      vote_matched := h.vote_matched
      leader_matched := h.leader_matched
      leader_log := by
        intro j hl
        by_cases hj : j = i
        · subst hj
          have : (s.newTerm j t).term j = t := by simp [State.newTerm]
          rw [this] at hl
          exact absurd (h.leader_le hl) (by omega)
        · have : (s.newTerm i t).term j = s.term j := by simp [State.newTerm, hj]
          rw [this] at hl ⊢
          exact h.leader_log j hl
      log_term := fun he => (h.log_term he).trans (hmono _)
      acked_le := h.acked_le
      acked_term := fun ha => (h.acked_term ha).trans (hmono _) }

theorem LogInv.vote (h : LogInv s) {i c : ι} : LogInv (s.vote i c) where
  vote_le := by
    intro v t d hv
    simp only [State.vote, set₂_apply] at hv ⊢
    split at hv
    · next hvt => rw [hvt.1, hvt.2]
    · exact h.vote_le hv
  leader_le := h.leader_le
  unelected := h.unelected
  electLog_isPrefix := h.electLog_isPrefix
  elect_term := h.elect_term
  own_term := h.own_term
  log_matched := h.log_matched
  vote_matched := by
    intro v t
    simp only [State.vote, set₂_apply]
    split
    · exact h.log_matched i
    · exact h.vote_matched v t
  leader_matched := h.leader_matched
  leader_log := h.leader_log
  log_term := h.log_term
  acked_le := h.acked_le
  acked_term := h.acked_term

omit [DecidableEq ι] in
theorem LogInv.elect (h : LogInv s) {c : ι} (hnone : s.leader (s.term c) = none) :
    LogInv (s.elect c) := by
  have hgrow := leaderLog_elect h hnone
  exact
    { vote_le := h.vote_le
      leader_le := by
        intro t d hd
        by_cases ht : t = s.term c
        · subst ht
          simp only [State.elect, Function.update_self, Option.some.injEq] at hd
          rw [← hd]
          exact le_rfl
        · simp only [State.elect, ne_eq, ht, not_false_eq_true, Function.update_of_ne] at hd
          exact h.leader_le hd
      unelected := by
        intro t ht
        by_cases htc : t = s.term c
        · simp [State.elect, htc] at ht
        · simp only [State.elect, ne_eq, htc, not_false_eq_true, Function.update_of_ne] at ht ⊢
          exact h.unelected ht
      electLog_isPrefix := by
        intro t
        by_cases htc : t = s.term c
        · simp [State.elect, htc]
        · simpa [State.elect, htc] using h.electLog_isPrefix t
      elect_term := by
        intro t e he
        by_cases htc : t = s.term c
        · subst htc
          simp only [State.elect, Function.update_self] at he
          exact h.log_term_lt hnone he
        · simp only [State.elect, ne_eq, htc, not_false_eq_true, Function.update_of_ne] at he
          exact h.elect_term he
      own_term := by
        intro t e he
        by_cases htc : t = s.term c
        · simp [State.elect, htc] at he
        · simp only [State.elect, ne_eq, htc, not_false_eq_true, Function.update_of_ne] at he
          exact h.own_term he
      log_matched := fun i => (h.log_matched i).mono hgrow
      vote_matched := fun v t => (h.vote_matched v t).mono hgrow
      leader_matched := by
        intro t
        by_cases htc : t = s.term c
        · subst htc
          simpa [State.elect] using (h.log_matched c).mono hgrow
        · simpa [State.elect, htc] using (h.leader_matched t).mono hgrow
      leader_log := by
        intro i hi
        by_cases htc : s.term i = s.term c
        · simp only [State.elect, htc, Function.update_self, Option.some.injEq] at hi ⊢
          rw [hi]
        · simp only [State.elect, ne_eq, htc, not_false_eq_true, Function.update_of_ne] at hi ⊢
          exact h.leader_log i hi
      log_term := h.log_term
      acked_le := fun v t => (h.acked_le v t).trans (hgrow t).length_le
      acked_term := h.acked_term }

theorem LogInv.append (h : LogInv s) {i : ι} {e : ε} (hlead : s.leader (s.term i) = some i)
    (he : term e = s.term i) : LogInv (s.append i e) := by
  have hgrow := leaderLog_append h hlead e
  -- the leader's log grew by an entry of its own term, so it is still matched
  have hmatched : Matched (s.append i e) (s.log i ++ [e]) := by
    refine ((h.log_matched i).mono hgrow).concat ?_
    simp only [he, State.append, Function.update_self]
    exact List.prefix_rfl
  exact
    { vote_le := h.vote_le
      leader_le := h.leader_le
      unelected := by
        intro t ht
        have htc : t ≠ s.term i := by
          rintro rfl
          simp only [State.append] at ht
          rw [hlead] at ht
          exact absurd ht (by simp)
        simpa [State.append, htc] using h.unelected ht
      electLog_isPrefix := fun t => (h.electLog_isPrefix t).trans (hgrow t)
      elect_term := h.elect_term
      own_term := own_term_append h hlead he
      log_matched := by
        intro j
        by_cases hj : j = i
        · subst hj
          simpa [State.append] using hmatched
        · simpa [State.append, hj] using (h.log_matched j).mono hgrow
      vote_matched := fun v t => (h.vote_matched v t).mono hgrow
      leader_matched := by
        intro t
        by_cases htc : t = s.term i
        · subst htc
          simpa [State.append] using hmatched
        · simpa [State.append, htc] using (h.leader_matched t).mono hgrow
      leader_log := by
        intro j hj
        by_cases hji : j = i
        · subst hji
          simp [State.append]
        · have hne : s.term j ≠ s.term i := by
            intro heq
            simp only [State.append] at hj
            rw [heq, hlead] at hj
            exact hji (Option.some.inj hj).symm
          simpa [State.append, hji, hne] using h.leader_log j hj
      log_term := by
        intro j x hx
        by_cases hj : j = i
        · subst hj
          simp only [State.append, Function.update_self, List.mem_append,
            List.mem_singleton] at hx
          rcases hx with hx | hx
          · exact h.log_term hx
          · rw [hx, he]
            exact le_rfl
        · simp only [State.append, ne_eq, hj, not_false_eq_true, Function.update_of_ne] at hx
          exact h.log_term hx
      acked_le := fun v t => (h.acked_le v t).trans (hgrow t).length_le
      acked_term := h.acked_term }

theorem LogInv.accept (h : LogInv s) {i : ι} {L : List ε}
    (hL : L <+: s.leaderLog (s.term i)) : LogInv (s.accept i L) where
  vote_le := h.vote_le
  leader_le := h.leader_le
  unelected := h.unelected
  electLog_isPrefix := h.electLog_isPrefix
  elect_term := h.elect_term
  own_term := h.own_term
  log_matched := by
    intro j
    by_cases hj : j = i
    · subst hj
      simp only [State.accept, Function.update_self]
      rcases adopt_eq_or (s.log j) L with heq | heq
      · rw [heq]
        exact h.log_matched j
      · rw [heq]
        exact (h.leader_matched _).of_isPrefix hL
    · simp only [State.accept, ne_eq, hj, not_false_eq_true, Function.update_of_ne]
      exact h.log_matched j
  vote_matched := h.vote_matched
  leader_matched := h.leader_matched
  leader_log := by
    intro j hj
    by_cases hji : j = i
    · subst hji
      have hlog := h.leader_log j hj
      have hLl : L <+: s.log j := by
        rw [hlog]
        exact hL
      simpa [State.accept, adopt, hLl] using hlog
    · simpa [State.accept, hji] using h.leader_log j hj
  log_term := by
    intro j x hx
    by_cases hj : j = i
    · subst hj
      simp only [State.accept, Function.update_self] at hx
      rcases adopt_eq_or (s.log j) L with heq | heq
      · rw [heq] at hx
        exact h.log_term hx
      · rw [heq] at hx
        exact h.leader_term (hL.subset hx)
    · simp only [State.accept, ne_eq, hj, not_false_eq_true, Function.update_of_ne] at hx
      exact h.log_term hx
  acked_le := by
    intro v t
    simp only [State.accept, set₂_apply]
    split
    · next hvt =>
      rw [hvt.2]
      exact max_le (h.acked_le i _) hL.length_le
    · exact h.acked_le v t
  acked_term := by
    intro v t ha
    simp only [State.accept, set₂_apply] at ha ⊢
    split at ha
    · next hvt => rw [hvt.1, hvt.2]
    · exact h.acked_term ha

/-- **Every reachable state satisfies the log invariant.** -/
theorem Step.logInv (hst : Step Q s s') (h : LogInv s) : LogInv s' := by
  cases hst with
  | newTerm i t hlt => exact h.newTerm hlt
  | vote i c hnone => exact h.vote
  | elect c V hV hnone hvotes => exact h.elect hnone
  | append i e hlead he => exact h.append hlead he
  | accept i L hL => exact h.accept hL
  | addCommit t n V hV hterm hacks => exact { h with }
  | learn i t m n hc ht hn heq => exact { h with }

theorem Reachable.logInv (hr : Reachable Q s) : LogInv s := by
  induction hr with
  | initial => exact LogInv.initial
  | step _ hst ih => exact hst.logInv ih

end Protocol
end RaftConsensus
