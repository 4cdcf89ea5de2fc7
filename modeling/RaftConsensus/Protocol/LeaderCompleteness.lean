import RaftConsensus.Protocol.LogMatching

/-!
# Leader completeness

A committed prefix is in the log of every later leader, at the moment it is elected.

The circularity to break is this: a node that acknowledged a prefix still has it when it
votes for a later candidate *because* the leaders in between had it, and these had it
because of votes like this one.  The invariant therefore does not say that an
acknowledged prefix stays.  It says that it stays *or was overridden*: some leader of a
term in between was elected without it (`Overridden`).  That is provable step by step and
mentions neither quorums nor commits.  `leaderComplete` then removes the second case by
strong induction on the term.

A vote is given with a log in hand, and a vote cast after the election of its own term
may come from a log that this very leader has rewritten.  Only the votes that decide an
election must not be of that kind, so `elected` keeps the bound `u < t` that held when the
election took place.
-/

namespace RaftConsensus
namespace Protocol

open Termed (term)
open State

variable {ι ε : Type*} [Termed ε] {s s' s'' : State ι ε}

/-! ## History only grows -/

/-- What happened stays: terms, votes, elections, leader logs, acknowledgements and commits
of `s` are still there in `s'`. -/
structure Grows (s s' : State ι ε) : Prop where
  term : ∀ i, s.term i ≤ s'.term i
  voted : ∀ {v t c}, s.voted v t = some c →
    s'.voted v t = some c ∧ s'.voteLog v t = s.voteLog v t
  leader : ∀ {t c}, s.leader t = some c → s'.leader t = some c ∧ s'.electLog t = s.electLog t
  leaderLog : ∀ t, s.leaderLog t <+: s'.leaderLog t
  acked : ∀ v t, s.acked v t ≤ s'.acked v t
  commits : ∀ {c}, c ∈ s.commits → c ∈ s'.commits

omit [Termed ε] in
theorem Grows.refl (s : State ι ε) : Grows s s :=
  ⟨fun _ => le_rfl, fun h => ⟨h, rfl⟩, fun h => ⟨h, rfl⟩, fun _ => List.prefix_rfl,
    fun _ _ => le_rfl, fun h => h⟩

omit [Termed ε] in
theorem Grows.trans (h : Grows s s') (h' : Grows s' s'') : Grows s s'' where
  term i := (h.term i).trans (h'.term i)
  voted hv := ⟨(h'.voted (h.voted hv).1).1,
    (h'.voted (h.voted hv).1).2.trans (h.voted hv).2⟩
  leader hl := ⟨(h'.leader (h.leader hl).1).1,
    (h'.leader (h.leader hl).1).2.trans (h.leader hl).2⟩
  leaderLog t := (h.leaderLog t).trans (h'.leaderLog t)
  acked v t := (h.acked v t).trans (h'.acked v t)
  commits hc := h'.commits (h.commits hc)

omit [Termed ε] in
/-- A part of a leader log that is there stays what it is. -/
theorem Grows.take_leaderLog (h : Grows s s') {t n : ℕ} (hn : n ≤ (s.leaderLog t).length) :
    (s'.leaderLog t).take n = (s.leaderLog t).take n := by
  obtain ⟨r, hr⟩ := h.leaderLog t
  rw [← hr, List.take_append_of_le_length hn]

omit [Termed ε] in
theorem Grows.getElem?_leaderLog (h : Grows s s') {t k : ℕ} {e : ε}
    (hk : (s.leaderLog t)[k]? = some e) : (s'.leaderLog t)[k]? = some e := by
  obtain ⟨r, hr⟩ := h.leaderLog t
  have hlt : k < (s.leaderLog t).length := (List.getElem?_eq_some_iff.mp hk).1
  rw [← hr, List.getElem?_append_left hlt, hk]

theorem Step.grows [DecidableEq ι] {Q : Finset ι → Prop} (hst : Step Q s s') (h : LogInv s) :
    Grows s s' := by
  cases hst with
  | newTerm i t hlt =>
    refine { Grows.refl s with term := fun j => ?_ }
    by_cases hj : j = i
    · subst hj
      simpa [State.newTerm] using hlt.le
    · simp [State.newTerm, hj]
  | vote i c hnone =>
    refine { Grows.refl s with voted := fun {v t d} hv => ?_ }
    have hne : ¬ (v = i ∧ t = s.term i) := by
      rintro ⟨rfl, rfl⟩
      rw [hnone] at hv
      exact absurd hv (by simp)
    simp only [State.vote, set₂_apply, if_neg hne, and_true]
    exact hv
  | elect c V hV hnone hvotes =>
    refine { Grows.refl s with leader := fun {t d} hd => ?_, leaderLog := leaderLog_elect h hnone }
    have hne : t ≠ s.term c := by
      rintro rfl
      rw [hnone] at hd
      exact absurd hd (by simp)
    simpa [State.elect, hne] using hd
  | append i e hlead he =>
    exact { Grows.refl s with leaderLog := leaderLog_append h hlead e }
  | accept i L hL =>
    refine { Grows.refl s with acked := fun v t => ?_ }
    simp only [State.accept, set₂_apply]
    split
    · next hvt =>
      rw [hvt.1, hvt.2]
      exact le_max_left _ _
    · exact le_rfl
  | addCommit t n V hV hterm hacks =>
    exact { Grows.refl s with commits := fun hc => Set.mem_insert_of_mem _ hc }
  | learn i t m n hc ht hn heq => exact { Grows.refl s with }

/-! ## The invariant -/

/-- A leader of a term in `(t, b)` was elected without the first `n` entries of the log of
term `t`. -/
def Overridden (s : State ι ε) (t n b : ℕ) : Prop :=
  ∃ u c, t < u ∧ u < b ∧ s.leader u = some c ∧ ¬ (s.leaderLog t).take n <+: s.electLog u

omit [Termed ε] in
theorem Overridden.mono {t n b b' : ℕ} (h : Overridden s t n b) (hg : Grows s s')
    (hn : n ≤ (s.leaderLog t).length) (hb : b ≤ b') : Overridden s' t n b' := by
  obtain ⟨u, c, htu, hub, hc, hnot⟩ := h
  refine ⟨u, c, htu, by omega, (hg.leader hc).1, ?_⟩
  rwa [hg.take_leaderLog hn, (hg.leader hc).2]

/-- The first `n` entries of the log of term `t` are in `l`, or were overridden below `b`. -/
def Retained (s : State ι ε) (t n b : ℕ) (l : List ε) : Prop :=
  (s.leaderLog t).take n <+: l ∨ Overridden s t n b

omit [Termed ε] in
theorem Retained.mono {t n b b' : ℕ} {l : List ε} (h : Retained s t n b l) (hg : Grows s s')
    (hn : n ≤ (s.leaderLog t).length) (hb : b ≤ b') : Retained s' t n b' l := by
  rcases h with h | h
  · left
    rwa [hg.take_leaderLog hn]
  · exact Or.inr (h.mono hg hn hb)

/-- What acknowledged prefixes, votes, elections and commits guarantee. -/
structure SafetyInv (Q : Finset ι → Prop) (s : State ι ε) : Prop where
  held : ∀ {v t n}, s.Acked v t n → Retained s t n (s.term v + 1) (s.log v)
  voteHeld : ∀ {v t' c}, s.voted v t' = some c → ∀ {t n}, t < t' → s.Acked v t n →
    Retained s t n (t' + 1) (s.voteLog v t')
  elected : ∀ {t' c}, s.leader t' = some c → ∃ V, Q V ∧ ∀ v ∈ V, s.voted v t' = some c ∧
    UpToDate (s.electLog t') (s.voteLog v t') ∧
    ∀ {t n}, t < t' → s.Acked v t n → Retained s t n t' (s.voteLog v t')
  committed : ∀ {t n}, (t, n) ∈ s.commits → ∃ m e, n = m + 1 ∧
    (s.leaderLog t)[m]? = some e ∧ term e = t ∧ ∃ V, Q V ∧ ∀ v ∈ V, s.Acked v t n
  commit_le : ∀ i, s.commit i = 0 ∨ ∃ t m, (t, m) ∈ s.commits ∧ t ≤ s.term i ∧
    s.commit i ≤ m ∧ (s.log i).take (s.commit i) = (s.leaderLog t).take (s.commit i)

theorem SafetyInv.initial {Q : Finset ι → Prop} : SafetyInv Q (State.initial : State ι ε) := by
  constructor <;> simp [State.initial, State.Acked, Retained]

/-- A nonempty matched log is a prefix of the log of its last term. -/
theorem Matched.prefix_lastTerm {l : List ε} (h : Matched s l) (hne : l ≠ []) :
    ∃ e, l[l.length - 1]? = some e ∧ lastTerm l = term e ∧ l <+: s.leaderLog (term e) := by
  have hpos : 0 < l.length := List.length_pos_iff.mpr hne
  have hlast : l.getLast? = l[l.length - 1]? := List.getLast?_eq_getElem?
  refine ⟨l[l.length - 1], List.getElem?_eq_getElem _, ?_, ?_⟩
  · rw [lastTerm, hlast, List.getElem?_eq_getElem (by omega)]
    rfl
  · have := h (l.length - 1) _ (List.getElem?_eq_getElem (by omega))
    rwa [Nat.sub_add_cancel hpos, List.take_length] at this

variable {Q : Finset ι → Prop}

/-- **Domination.**  If `v` contains the first `m + 1` entries of the log of `t`, the last of
them of term `t`, and the log `l` is at least as up to date as `v`, then `l` contains them
too, provided all leaders of terms in between were elected with them. -/
theorem UpToDate.contains (h : LogInv s) {l v : List ε} {t m : ℕ} {e : ε}
    (hl : Matched s l) (hv : Matched s v) (hm : (s.leaderLog t)[m]? = some e)
    (he : term e = t) (hC : (s.leaderLog t).take (m + 1) <+: v) (hup : UpToDate l v)
    (hbetween : ∀ u c, t < u → (∃ x ∈ l, term x = u) → s.leader u = some c →
      (s.leaderLog t).take (m + 1) <+: s.electLog u) :
    (s.leaderLog t).take (m + 1) <+: l := by
  have hvm : v[m]? = some e := by
    obtain ⟨r, hr⟩ := hC
    have hlt : m < (s.leaderLog t).length := (List.getElem?_eq_some_iff.mp hm).1
    rw [← hr, List.getElem?_append_left (by rw [List.length_take]; omega),
      List.getElem?_take_of_lt (by omega), hm]
  have hvlen : m < v.length := (List.getElem?_eq_some_iff.mp hvm).1
  obtain ⟨ev, hev, hevt, hvp⟩ := hv.prefix_lastTerm (List.ne_nil_of_length_pos (by omega))
  have htv : t ≤ lastTerm v := by
    rw [hevt, ← he]
    exact h.term_le_of_le hv hvm hev (by omega)
  have hlne : l ≠ [] := by
    rintro rfl
    rcases hup with hlt | ⟨-, hlen⟩
    · simp [lastTerm] at hlt
    · simp only [List.length_nil] at hlen
      omega
  obtain ⟨el, hel, helt, hlp⟩ := hl.prefix_lastTerm hlne
  rcases hup with hlt | ⟨heq, hlen⟩
  · -- the last entry of `l` comes from a later leader, which had the prefix already
    obtain ⟨c, hc⟩ := h.exists_leader hl (List.mem_of_getElem? hel)
    have hlater := hbetween (term el) c (by omega) ⟨el, List.mem_of_getElem? hel, rfl⟩ hc
    exact hlater.trans (h.electLog_prefix_of_term hlp hel rfl)
  · -- both logs end in one term, so the longer one contains the shorter
    rw [← helt, heq, hevt] at hlp
    exact hC.trans (List.prefix_of_prefix_length_le hvp hlp hlen)

/-- **Leader completeness.**  What the leader of `t` committed is in the log with which any
later leader was elected. -/
theorem leaderComplete (hQ : ∀ A B, Q A → Q B → ∃ x, x ∈ A ∧ x ∈ B) (h : LogInv s)
    (hs : SafetyInv Q s) {t n : ℕ} (hc : (t, n) ∈ s.commits) :
    ∀ {t' c}, t < t' → s.leader t' = some c → (s.leaderLog t).take n <+: s.electLog t' := by
  obtain ⟨m, e, rfl, hm, he, V, hV, hacked⟩ := hs.committed hc
  intro t'
  induction t' using Nat.strong_induction_on with
  | _ t' ih =>
    intro c htt' hlead
    obtain ⟨V', hV', hvotes⟩ := hs.elected hlead
    obtain ⟨v, hvV, hvV'⟩ := hQ V V' hV hV'
    obtain ⟨-, hup, hret⟩ := hvotes v hvV'
    rcases hret htt' (hacked v hvV) with hC | ⟨u, d, htu, hut', hd, hnot⟩
    · refine UpToDate.contains h ((h.leader_matched t').of_isPrefix (h.electLog_isPrefix t'))
        (h.vote_matched v t') hm he hC hup ?_
      rintro u d htu ⟨x, hx, rfl⟩ hd
      exact ih (term x) (h.elect_term hx) htu hd
    · exact absurd (ih u hut' htu hd) hnot

/-! ## The steps keep the invariant -/

/-- Commits are justified for good. -/
theorem SafetyInv.committed_mono (hs : SafetyInv Q s) (hg : Grows s s') {t n : ℕ}
    (hc : (t, n) ∈ s.commits) : ∃ m e, n = m + 1 ∧ (s'.leaderLog t)[m]? = some e ∧ term e = t ∧
      ∃ V, Q V ∧ ∀ v ∈ V, s'.Acked v t n := by
  obtain ⟨m, e, hn, hm, he, V, hV, hacked⟩ := hs.committed hc
  refine ⟨m, e, hn, hg.getElem?_leaderLog hm, he, V, hV, fun v hv => ?_⟩
  obtain ⟨hlen, ha⟩ := hacked v hv
  refine ⟨hlen.trans (hg.leaderLog t).length_le, ?_⟩
  rcases ha with ⟨ha, hpos⟩ | ha
  · exact Or.inl ⟨ha.trans (hg.acked v t), hpos⟩
  · exact Or.inr (hg.leader ha).1

/-- A commit index stays justified while the committed prefix of the log stays. -/
theorem SafetyInv.commit_le_mono (hs : SafetyInv Q s) (hg : Grows s s') {i : ι}
    (hcommit : s'.commit i = s.commit i)
    (hlog : (s'.log i).take (s.commit i) = (s.log i).take (s.commit i)) :
    s'.commit i = 0 ∨ ∃ t m, (t, m) ∈ s'.commits ∧ t ≤ s'.term i ∧ s'.commit i ≤ m ∧
      (s'.log i).take (s'.commit i) = (s'.leaderLog t).take (s'.commit i) := by
  rw [hcommit]
  rcases hs.commit_le i with h0 | ⟨t, m, hc, ht, hm, heq⟩
  · exact Or.inl h0
  · obtain ⟨k, e, rfl, hk, -⟩ := hs.committed hc
    have hlen : k < (s.leaderLog t).length := (List.getElem?_eq_some_iff.mp hk).1
    refine Or.inr ⟨t, k + 1, hg.commits hc, ht.trans (hg.term i), hm, ?_⟩
    rw [hlog, heq, hg.take_leaderLog (by omega)]

/-- **Acceptance keeps what is committed.**  A node that accepts a prefix of the log of its
own term's leader keeps its committed prefix. -/
theorem adopt_take_commit (hQ : ∀ A B, Q A → Q B → ∃ x, x ∈ A ∧ x ∈ B) (h : LogInv s)
    (hs : SafetyInv Q s) {i : ι} {L : List ε} (hL : L <+: s.leaderLog (s.term i)) :
    (adopt (s.log i) L).take (s.commit i) = (s.log i).take (s.commit i) := by
  rcases hs.commit_le i with h0 | ⟨t, m, hc, ht, hm, heq⟩
  · simp [h0]
  obtain ⟨k, e, rfl, hk, -⟩ := hs.committed hc
  have hlen : k < (s.leaderLog t).length := (List.getElem?_eq_some_iff.mp hk).1
  have hkeep : (s.log i).take (s.commit i) <+: adopt (s.log i) L := by
    rcases hlead : s.leader (s.term i) with _ | c
    · -- no leader yet: the accepted prefix is empty
      rw [(h.unelected hlead).1, List.prefix_nil] at hL
      rw [hL]
      simpa [adopt] using List.take_prefix _ _
    · refine prefix_adopt_of_isPrefix (List.take_prefix _ _) ?_ hL
      rw [heq]
      rcases ht.eq_or_lt with rfl | hlt
      · exact List.take_prefix _ _
      · refine List.IsPrefix.trans ?_ ((leaderComplete hQ h hs hc hlt hlead).trans
          (h.electLog_isPrefix _))
        exact List.take_prefix_take_left (by omega)
  have htake : ((s.log i).take (s.commit i)).length = s.commit i := by
    rw [heq, List.length_take]
    omega
  obtain ⟨r, hr⟩ := hkeep
  rw [← hr, List.take_append_of_le_length (by omega), List.take_of_length_le (by omega)]

section Steps

variable [DecidableEq ι]

theorem SafetyInv.newTerm (hs : SafetyInv Q s) {i : ι} {t : ℕ}
    (hg : Grows s (s.newTerm i t)) : SafetyInv Q (s.newTerm i t) where
  held := fun {v _ _} ha => (hs.held ha).mono hg ha.1 (Nat.succ_le_succ (hg.term v))
  voteHeld := fun hv _ _ hlt ha => (hs.voteHeld hv hlt ha).mono hg ha.1 le_rfl
  elected := hs.elected
  committed := hs.committed_mono hg
  commit_le := fun _ => hs.commit_le_mono hg rfl rfl

theorem SafetyInv.vote (hs : SafetyInv Q s) {i c : ι}
    (hnone : s.voted i (s.term i) = none) (hg : Grows s (s.vote i c)) :
    SafetyInv Q (s.vote i c) where
  held := fun {v _ _} ha => (hs.held ha).mono hg ha.1 le_rfl
  voteHeld := by
    intro v t' d hv t n hlt ha
    by_cases hvt : v = i ∧ t' = s.term i
    · obtain ⟨rfl, rfl⟩ := hvt
      have hlog : (s.vote v c).voteLog v (s.term v) = s.log v := by
        simp [State.vote, set₂_apply]
      rw [hlog]
      exact (hs.held ha).mono hg ha.1 le_rfl
    · simp only [State.vote, set₂_apply, if_neg hvt] at hv ⊢
      exact (hs.voteHeld hv hlt ha).mono hg ha.1 le_rfl
  elected := by
    intro t' d hd
    obtain ⟨V, hV, hvotes⟩ := hs.elected hd
    refine ⟨V, hV, fun v hv => ?_⟩
    obtain ⟨hvd, hup, hret⟩ := hvotes v hv
    rw [(hg.voted hvd).2]
    exact ⟨(hg.voted hvd).1, hup, fun hlt ha => (hret hlt ha).mono hg ha.1 le_rfl⟩
  committed := hs.committed_mono hg
  commit_le := fun _ => hs.commit_le_mono hg rfl rfl

omit [DecidableEq ι] in
/-- A new acknowledgement of a leader elected just now is its own. -/
theorem acked_elect (h : LogInv s) {c v : ι} {t n : ℕ} (hnone : s.leader (s.term c) = none)
    (ha : (s.elect c).Acked v t n) : s.Acked v t n ∨ v = c ∧ t = s.term c := by
  obtain ⟨hlen, ha⟩ := ha
  by_cases ht : t = s.term c
  · subst ht
    rcases ha with ⟨ha, hpos⟩ | ha
    · have hle := h.acked_le v (s.term c)
      rw [(h.unelected hnone).1, List.length_nil] at hle
      have ha' : n ≤ s.acked v (s.term c) := ha
      omega
    · simp only [State.elect, Function.update_self, Option.some.injEq] at ha
      exact Or.inr ⟨ha.symm, rfl⟩
  · left
    simp only [State.elect, ne_eq, ht, not_false_eq_true, Function.update_of_ne] at hlen ha
    exact ⟨hlen, ha⟩

omit [DecidableEq ι] in
theorem SafetyInv.elect (h : LogInv s) (hs : SafetyInv Q s) {c : ι} {V : Finset ι} (hV : Q V)
    (hnone : s.leader (s.term c) = none)
    (hvotes : ∀ v ∈ V, s.voted v (s.term c) = some c ∧
      UpToDate (s.log c) (s.voteLog v (s.term c)))
    (hg : Grows s (s.elect c)) : SafetyInv Q (s.elect c) where
  held := by
    intro v t n ha
    rcases acked_elect h hnone ha with ha | ⟨rfl, rfl⟩
    · exact (hs.held ha).mono hg ha.1 le_rfl
    · left
      simpa [State.elect] using List.take_prefix n (s.log v)
  voteHeld := by
    intro v t' d hv t n hlt ha
    rcases acked_elect h hnone ha with ha | ⟨rfl, rfl⟩
    · exact (hs.voteHeld hv hlt ha).mono hg ha.1 le_rfl
    · exact absurd (h.vote_le hv) (by omega)
  elected := by
    intro t' d hd
    by_cases ht : t' = s.term c
    · -- the election that just took place: no leader of this term can have overridden anything
      subst ht
      simp only [State.elect, Function.update_self, Option.some.injEq] at hd
      subst hd
      refine ⟨V, hV, fun v hv => ?_⟩
      obtain ⟨hvc, hup⟩ := hvotes v hv
      refine ⟨hvc, ?_, fun {t n} hlt ha => ?_⟩
      · simpa [State.elect] using hup
      · rcases acked_elect h hnone ha with ha | ⟨-, rfl⟩
        · rcases hs.voteHeld hvc hlt ha with hC | ⟨u, d, htu, hub, hd, hnot⟩
          · exact Retained.mono (Or.inl hC) hg ha.1 le_rfl
          · have hne : u ≠ s.term c := by
              rintro rfl
              rw [hnone] at hd
              exact absurd hd (by simp)
            exact Retained.mono (Or.inr ⟨u, d, htu, by omega, hd, hnot⟩) hg ha.1 le_rfl
        · exact absurd hlt (lt_irrefl _)
    · have hd' : s.leader t' = some d := by
        simpa [State.elect, ht] using hd
      obtain ⟨V', hV', hvotes'⟩ := hs.elected hd'
      refine ⟨V', hV', fun v hv => ?_⟩
      obtain ⟨hvd, hup, hret⟩ := hvotes' v hv
      rw [(hg.leader hd').2]
      refine ⟨hvd, hup, fun hlt ha => ?_⟩
      rcases acked_elect h hnone ha with ha | ⟨rfl, rfl⟩
      · exact (hret hlt ha).mono hg ha.1 le_rfl
      · exact absurd (h.vote_le hvd) (by omega)
  committed := hs.committed_mono hg
  commit_le := fun _ => hs.commit_le_mono hg rfl rfl

/-- After an append, an acknowledgement is an old one or the leader's own of its new log. -/
theorem acked_append (h : LogInv s) {i v : ι} {e : ε} {t n : ℕ}
    (hlead : s.leader (s.term i) = some i) (ha : (s.append i e).Acked v t n) :
    s.Acked v t n ∨ v = i ∧ t = s.term i := by
  obtain ⟨hlen, ha⟩ := ha
  by_cases ht : t = s.term i
  · subst ht
    rcases ha with ⟨ha, hpos⟩ | ha
    · exact Or.inl ⟨le_trans ha (h.acked_le v _), Or.inl ⟨ha, hpos⟩⟩
    · simp only [State.append] at ha
      rw [hlead] at ha
      exact Or.inr ⟨(Option.some.inj ha).symm, rfl⟩
  · left
    simp only [State.append, ne_eq, ht, not_false_eq_true, Function.update_of_ne] at hlen ha
    exact ⟨hlen, ha⟩

theorem SafetyInv.append (h : LogInv s) (hs : SafetyInv Q s) {i : ι} {e : ε}
    (hlead : s.leader (s.term i) = some i) (hg : Grows s (s.append i e)) :
    SafetyInv Q (s.append i e) where
  held := by
    intro v t n ha
    by_cases hvt : v = i ∧ t = s.term i
    · obtain ⟨rfl, rfl⟩ := hvt
      left
      simpa [State.append] using List.take_prefix n (s.log v ++ [e])
    · have ha' : s.Acked v t n := (acked_append h hlead ha).resolve_right hvt
      have hret := (hs.held ha').mono hg ha'.1 le_rfl
      by_cases hv : v = i
      · subst hv
        rcases hret with hC | ho
        · left
          simpa [State.append] using hC.trans (List.prefix_append _ _)
        · exact Or.inr ho
      · simpa [State.append, hv] using hret
  voteHeld := by
    intro v t' d hv t n hlt ha
    rcases acked_append h hlead ha with ha | ⟨rfl, rfl⟩
    · exact (hs.voteHeld hv hlt ha).mono hg ha.1 le_rfl
    · exact absurd (h.vote_le hv) (by omega)
  elected := by
    intro t' d hd
    obtain ⟨V, hV, hvotes⟩ := hs.elected hd
    refine ⟨V, hV, fun v hv => ?_⟩
    obtain ⟨hvd, hup, hret⟩ := hvotes v hv
    refine ⟨hvd, hup, fun hlt ha => ?_⟩
    rcases acked_append h hlead ha with ha | ⟨rfl, rfl⟩
    · exact (hret hlt ha).mono hg ha.1 le_rfl
    · exact absurd (h.vote_le hvd) (by omega)
  committed := hs.committed_mono hg
  commit_le := by
    intro j
    refine hs.commit_le_mono hg rfl ?_
    by_cases hj : j = i
    · subst hj
      rcases hs.commit_le j with h0 | ⟨t, m, hc, -, hm, heq⟩
      · simp [h0]
      · obtain ⟨k, x, rfl, hk, -⟩ := hs.committed hc
        have hlen : k < (s.leaderLog t).length := (List.getElem?_eq_some_iff.mp hk).1
        have hle : s.commit j ≤ (s.log j).length := by
          have := congrArg List.length heq
          rw [List.length_take, List.length_take] at this
          omega
        simp only [State.append, Function.update_self]
        rw [List.take_append_of_le_length hle]
    · simp [State.append, hj]

omit [Termed ε] in
/-- After an acceptance, an acknowledgement is an old one or the new one. -/
theorem acked_accept {i v : ι} {L : List ε} {t n : ℕ} (ha : (s.accept i L).Acked v t n) :
    s.Acked v t n ∨ v = i ∧ t = s.term i ∧ n ≤ L.length := by
  obtain ⟨hlen, ha⟩ := ha
  rcases ha with ⟨ha, hpos⟩ | ha
  · simp only [State.accept, set₂_apply] at ha
    split at ha
    · next hvt =>
      obtain ⟨rfl, rfl⟩ := hvt
      rcases le_max_iff.mp ha with ha | ha
      · exact Or.inl ⟨hlen, Or.inl ⟨ha, hpos⟩⟩
      · exact Or.inr ⟨rfl, rfl, ha⟩
    · exact Or.inl ⟨hlen, Or.inl ⟨ha, hpos⟩⟩
  · exact Or.inl ⟨hlen, Or.inr ha⟩

theorem SafetyInv.accept (hQ : ∀ A B, Q A → Q B → ∃ x, x ∈ A ∧ x ∈ B) (h : LogInv s)
    (hs : SafetyInv Q s) {i : ι} {L : List ε} (hL : L <+: s.leaderLog (s.term i))
    (hg : Grows s (s.accept i L)) : SafetyInv Q (s.accept i L) where
  held := by
    intro v t n hnew
    rcases acked_accept hnew with ha | ⟨rfl, rfl, hn⟩
    · by_cases hv : v = i
      · subst hv
        have hlog : (s.accept v L).log v = adopt (s.log v) L := by simp [State.accept]
        rw [hlog]
        rcases hs.held ha with hC | ho
        · -- an acknowledged prefix survives unless the accepting term's leader lacks it
          rcases hlead : s.leader (s.term v) with _ | c
          · rw [(h.unelected hlead).1, List.prefix_nil] at hL
            subst hL
            exact Or.inl (hC.trans (by simp [adopt]))
          · have hle : t ≤ s.term v := by
              rcases ha.2 with ⟨hn, hpos⟩ | hl
              · exact h.acked_term (hpos.trans_le hn)
              · exact h.leader_le hl
            rcases hle.eq_or_lt with rfl | hlt
            · exact Or.inl (prefix_adopt_of_isPrefix hC (List.take_prefix _ _) hL)
            · by_cases hin : (s.leaderLog t).take n <+: s.electLog (s.term v)
              · exact Or.inl (prefix_adopt_of_isPrefix hC
                  (hin.trans (h.electLog_isPrefix _)) hL)
              · exact Or.inr ⟨s.term v, c, hlt, Nat.lt_succ_self _, hlead, hin⟩
        · exact Or.inr (ho.mono hg ha.1 le_rfl)
      · have hlog : (s.accept i L).log v = s.log v := by simp [State.accept, hv]
        rw [hlog]
        exact (hs.held ha).mono hg ha.1 le_rfl
    · left
      have hlog : (s.accept v L).log v = adopt (s.log v) L := by simp [State.accept]
      rw [hlog]
      refine List.IsPrefix.trans ?_ (prefix_adopt _ _)
      refine List.prefix_of_prefix_length_le (List.take_prefix _ _) hL ?_
      rw [List.length_take]
      exact (min_le_left _ _).trans hn
  voteHeld := by
    intro v t' d hv t n hlt ha
    rcases acked_accept ha with ha | ⟨rfl, rfl, -⟩
    · exact (hs.voteHeld hv hlt ha).mono hg ha.1 le_rfl
    · exact absurd (h.vote_le hv) (by omega)
  elected := by
    intro t' d hd
    obtain ⟨V, hV, hvotes⟩ := hs.elected hd
    refine ⟨V, hV, fun v hv => ?_⟩
    obtain ⟨hvd, hup, hret⟩ := hvotes v hv
    refine ⟨hvd, hup, fun hlt ha => ?_⟩
    rcases acked_accept ha with ha | ⟨rfl, rfl, -⟩
    · exact (hret hlt ha).mono hg ha.1 le_rfl
    · exact absurd (h.vote_le hvd) (by omega)
  committed := hs.committed_mono hg
  commit_le := by
    intro j
    refine hs.commit_le_mono hg rfl ?_
    by_cases hj : j = i
    · subst hj
      simpa [State.accept] using adopt_take_commit hQ h hs hL
    · simp [State.accept, hj]

omit [DecidableEq ι] in
theorem SafetyInv.addCommit (hs : SafetyInv Q s) {t n : ℕ} {V : Finset ι} (hV : Q V)
    (hterm : ∃ e, (s.leaderLog t)[n]? = some e ∧ term e = t)
    (hacks : ∀ v ∈ V, s.Acked v t (n + 1)) : SafetyInv Q (s.addCommit t (n + 1)) where
  held := hs.held
  voteHeld := hs.voteHeld
  elected := hs.elected
  committed := by
    intro t' n' hc
    rcases Set.mem_insert_iff.mp hc with heq | hc
    · obtain ⟨rfl, rfl⟩ := Prod.mk.inj heq
      obtain ⟨e, he, het⟩ := hterm
      exact ⟨n, e, rfl, he, het, V, hV, hacks⟩
    · exact hs.committed hc
  commit_le := by
    intro i
    rcases hs.commit_le i with h0 | ⟨t', m, hc, ht, hm, heq⟩
    · exact Or.inl h0
    · exact Or.inr ⟨t', m, Set.mem_insert_of_mem _ hc, ht, hm, heq⟩

theorem SafetyInv.learn (hs : SafetyInv Q s) {i : ι} {t m n : ℕ} (hc : (t, m) ∈ s.commits)
    (ht : t ≤ s.term i) (hn : n ≤ m) (heq : (s.log i).take n = (s.leaderLog t).take n) :
    SafetyInv Q (s.learn i n) where
  held := hs.held
  voteHeld := hs.voteHeld
  elected := hs.elected
  committed := hs.committed
  commit_le := by
    intro j
    by_cases hj : j = i
    · subst hj
      refine Or.inr ⟨t, m, hc, ht, ?_, ?_⟩
      · simpa [State.learn] using hn
      · simpa [State.learn] using heq
    · simpa [State.learn, hj] using hs.commit_le j

/-- **Every reachable state satisfies the safety invariant.** -/
theorem Step.safetyInv (hQ : ∀ A B, Q A → Q B → ∃ x, x ∈ A ∧ x ∈ B) (hst : Step Q s s')
    (h : LogInv s) (hs : SafetyInv Q s) : SafetyInv Q s' := by
  have hg := hst.grows h
  cases hst with
  | newTerm i t hlt => exact hs.newTerm hg
  | vote i c hnone => exact hs.vote hnone hg
  | elect c V hV hnone hvotes => exact hs.elect h hV hnone hvotes hg
  | append i e hlead he => exact hs.append h hlead hg
  | accept i L hL => exact hs.accept hQ h hL hg
  | addCommit t n V hV hterm hacks => exact hs.addCommit hV hterm hacks
  | learn i t m n hc ht hn heq => exact hs.learn hc ht hn heq

theorem Reachable.safetyInv (hQ : ∀ A B, Q A → Q B → ∃ x, x ∈ A ∧ x ∈ B)
    (hr : Reachable Q s) : SafetyInv Q s := by
  induction hr with
  | initial => exact SafetyInv.initial
  | step hr hst ih => exact hst.safetyInv hQ hr.logInv ih

end Steps

/-! ## Who holds what -/

/-- **What is committed is held by a quorum**, for good: those who have acknowledged it have lost
none of it since. -/
theorem committed_held (hQ : ∀ A B, Q A → Q B → ∃ x, x ∈ A ∧ x ∈ B) (h : LogInv s)
    (hs : SafetyInv Q s) {t n : ℕ} (hc : (t, n) ∈ s.commits) :
    ∃ V, Q V ∧ ∀ v ∈ V, (s.leaderLog t).take n <+: s.log v := by
  obtain ⟨m, e, rfl, -, -, V, hV, hacked⟩ := hs.committed hc
  refine ⟨V, hV, fun v hv => (hs.held (hacked v hv)).resolve_right ?_⟩
  rintro ⟨u, c, htu, -, hlead, hnot⟩
  exact hnot (leaderComplete hQ h hs hc htu hlead)

/-- **What a node has acknowledged in its current term** it holds. -/
theorem SafetyInv.acked_held (hs : SafetyInv Q s) {v : ι} {n : ℕ} (ha : s.Acked v (s.term v) n) :
    (s.leaderLog (s.term v)).take n <+: s.log v := by
  refine (hs.held ha).resolve_right ?_
  rintro ⟨u, c, htu, hu, -⟩
  omega

/-! ## What commits agree on -/

/-- **Two commits are prefixes of one log.** -/
theorem exists_common_log (hQ : ∀ A B, Q A → Q B → ∃ x, x ∈ A ∧ x ∈ B) (h : LogInv s)
    (hs : SafetyInv Q s) {t n t' n' : ℕ} (hc : (t, n) ∈ s.commits) (hc' : (t', n') ∈ s.commits) :
    ∃ B, (s.leaderLog t).take n <+: B ∧ (s.leaderLog t').take n' <+: B := by
  have hlead : ∀ {t n}, (t, n) ∈ s.commits → ∃ c, s.leader t = some c := by
    intro t n hc
    obtain ⟨m, e, -, hm, he, -⟩ := hs.committed hc
    have := h.exists_leader (h.leader_matched t) (List.mem_of_getElem? hm)
    rwa [he] at this
  rcases lt_trichotomy t t' with hlt | rfl | hlt
  · obtain ⟨c, hc''⟩ := hlead hc'
    exact ⟨s.leaderLog t', (leaderComplete hQ h hs hc hlt hc'').trans (h.electLog_isPrefix _),
      List.take_prefix _ _⟩
  · exact ⟨s.leaderLog t, List.take_prefix _ _, List.take_prefix _ _⟩
  · obtain ⟨c, hc''⟩ := hlead hc
    exact ⟨s.leaderLog t, List.take_prefix _ _,
      (leaderComplete hQ h hs hc' hlt hc'').trans (h.electLog_isPrefix _)⟩

/-- Below two commit indices the committed logs hold the same entries. -/
theorem getElem?_commit_eq (hQ : ∀ A B, Q A → Q B → ∃ x, x ∈ A ∧ x ∈ B) (h : LogInv s)
    (hs : SafetyInv Q s) {t n t' n' k : ℕ} (hc : (t, n) ∈ s.commits)
    (hc' : (t', n') ∈ s.commits) (hk : k < n) (hk' : k < n') :
    (s.leaderLog t)[k]? = (s.leaderLog t')[k]? := by
  obtain ⟨B, ⟨r, hr⟩, ⟨r', hr'⟩⟩ := exists_common_log hQ h hs hc hc'
  obtain ⟨m, e, rfl, hm, -⟩ := hs.committed hc
  obtain ⟨m', e', rfl, hm', -⟩ := hs.committed hc'
  have hlen : m < (s.leaderLog t).length := (List.getElem?_eq_some_iff.mp hm).1
  have hlen' : m' < (s.leaderLog t').length := (List.getElem?_eq_some_iff.mp hm').1
  have h1 : B[k]? = (s.leaderLog t)[k]? := by
    rw [← hr, List.getElem?_append_left (by rw [List.length_take]; omega),
      List.getElem?_take_of_lt hk]
  have h2 : B[k]? = (s.leaderLog t')[k]? := by
    rw [← hr', List.getElem?_append_left (by rw [List.length_take]; omega),
      List.getElem?_take_of_lt hk']
  rw [← h1, h2]

end Protocol
end RaftConsensus
