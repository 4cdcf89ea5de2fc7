import RaftConsensus.Safety

/-!
# Threads that wait for their entries

A client thread appends an entry, waits, and then reads off the server what has become of
it.  `Node.handle_serves` lists what a section can do to the client threads: nothing, take a
request, or answer one.

While a thread waits, its node can lose an election and have the entry overwritten, and then
win another one.  `Cluster.NoOrphans` excludes the last of these steps, and under it

* a thread that waits at a leader waits for an entry of its log, and
* what was committed when a thread appended its entry lies before the entry, or another
  entry has been committed in its place.

`Cluster.Attended` is the invariant of runs with these two, and `Cluster.attended` says that
it is one.
-/

namespace RaftConsensus

open Protocol (Confined Grows)

/-! ## Who wins -/

namespace Server

/-- The input makes the server the leader. -/
def wins (s : Server) : Input → Bool
  | .requestVoteReply electionTerm reply =>
    reply.term ≤ s.metadata.currentTerm && s.role = .candidate &&
      s.metadata.currentTerm = electionTerm && reply.voteGranted &&
      s.majority ≤ (s.votesReceived + 1) % 2 ^ 64
  | .electionTimeout => s.role ≠ .leader && s.majority ≤ 1
  | _ => false

/-- The entry of a thread is in the log. -/
def Keeps (s : Server) (w : Waiter) : Prop := s.logEntries[w.index - 1]? = some w.entry

instance (s : Server) (w : Waiter) : Decidable (s.Keeps w) :=
  inferInstanceAs (Decidable (_ = _))

/-- **What `propose` does**: the entry of the thread is at the end of the leader's log. -/
theorem propose_eq_some {s s' : Server} {request : Request} {w : Waiter}
    (h : s.propose request = some (w, s')) :
    w = ⟨request, s.nextLogIndex, s.metadata.currentTerm⟩ ∧ s.role = .leader ∧
      s'.metadata.currentTerm = s.metadata.currentTerm ∧
      s'.logEntries = s.logEntries ++ [w.entry] := by
  obtain ⟨hrole, hw, hs'⟩ := propose_eq h
  obtain ⟨es, hes⟩ := advanceCommit_commits (s.appendEntry w.entry)
  rw [← hs'] at hes
  exact ⟨hw, hrole, hes.currentTerm, hes.logEntries⟩

end Server

namespace Node

variable {n m : Node} {x : Input} {os : List Output}

/-- A leader after a section was the leader of its term before, or has won with its log as it
was. -/
theorem handle_leader (h : n.handle x = some (m, os)) (hrole : m.server.role = .leader) :
    (n.server.role = .leader ∧
        m.server.metadata.currentTerm = n.server.metadata.currentTerm) ∨
      n.server.wins x = true ∧
        .becomeLeader m.server.metadata.currentTerm n.server.logEntries ∈ m.server.effects := by
  cases handle_turn h with
  | quiet hq => exact Or.inl (hq.leader hrole)
  | candidacy hx hrole' => exact absurd (hrole.symm.trans hrole') (by simp)
  | counted hx hgranted hrole' hterm heq =>
    obtain rfl : m = _ := heq
    exact absurd (hrole.symm.trans hrole') (by simp)
  | elected pre post heff hpre hpost hrole' hwin =>
    refine Or.inr ⟨?_, by rw [heff]; simp⟩
    rcases hwin with ⟨hmaj, -, -, rfl⟩ | ⟨reply, rfl, hgranted, hcand, -, hmaj⟩
    · cases handle_section h with
      | electionTimeout r hr =>
        cases Server.electionTimeout_way hr with
        | alone hlead | campaigns hlead => simp [Server.wins, hlead, hmaj]
    · -- a reply of a later term makes a follower
      have hle : reply.term ≤ n.server.metadata.currentTerm := by
        by_contra hlt
        have hserver : n.server.handleRequestVoteReply n.server.metadata.currentTerm reply =
            m.server := by
          rw [← (Prod.mk.inj (Option.some.inj h)).1]
        rw [Server.handleRequestVoteReply, if_pos (not_le.mp hlt)] at hserver
        rw [← hserver] at hrole
        exact absurd hrole (by simp [Server.stepDown, Server.persistMetaData, Server.emit])
      simp only [Server.wins, hle, hcand, hgranted, hmaj, decide_true, Bool.and_self]

/-! ## What the client threads do -/

/-- **What a section can mean for the clients.** -/
inductive Serves (n m : Node) : List Output → Prop
  | silent (os : List Output) (hwait : m.waiting = n.waiting) (hprop : ∀ w, .proposed w ∉ os)
      (hans : ∀ w answer s, .answered w answer s ∉ os) : Serves n m os
  | proposed (request : Request) (w : Waiter)
      (hpropose : n.server.propose request = some (w, m.server))
      (hwait : m.waiting = n.waiting ++ [w]) : Serves n m [.proposed w]
  | atOnce (request : Request) (w : Waiter)
      (hpropose : n.server.propose request = some (w, m.server)) (hwait : m.waiting = n.waiting) :
      Serves n m [.proposed w, .answered w (m.server.answer w) m.server]
  | woken (w : Waiter) (hw : w ∈ n.waiting) (hserver : m.server = n.server)
      (hwait : m.waiting = n.waiting.erase w) :
      Serves n m [.answered w (m.server.answer w) m.server]

theorem handle_serves (h : n.handle x = some (m, os)) : Serves n m os := by
  cases handle_section h with
  | proposed request w s hp => exact .proposed request w hp rfl
  | atOnce request w s hp => exact .atOnce request w hp rfl
  | wake w timedOut hw => exact .woken w hw rfl rfl
  | _ => exact .silent _ rfl (by simp) (by simp)

namespace Serves

variable (h : Serves n m os) {v : Waiter}

include h

/-- A thread that waits has waited before, or has just appended its entry. -/
theorem mem_waiting (hv : v ∈ m.waiting) : v ∈ n.waiting ∨ .proposed v ∈ os := by
  cases h with
  | silent _ hwait => exact Or.inl (hwait ▸ hv)
  | proposed request w hp hwait =>
    rw [hwait] at hv
    rcases List.mem_append.mp hv with hv | hv
    · exact Or.inl hv
    · rw [List.mem_singleton.mp hv]
      exact Or.inr List.mem_cons_self
  | atOnce request w hp hwait => exact Or.inl (hwait ▸ hv)
  | woken w hw hserver hwait => exact Or.inl (List.mem_of_mem_erase (hwait ▸ hv))

theorem of_proposed (hv : .proposed v ∈ os) :
    ∃ request, n.server.propose request = some (v, m.server) := by
  cases h with
  | silent _ _ hprop => exact absurd hv (hprop v)
  | proposed request w hp =>
    obtain rfl : v = w := by simpa using hv
    exact ⟨request, hp⟩
  | atOnce request w hp =>
    obtain rfl : v = w := by simpa using hv
    exact ⟨request, hp⟩
  | woken => exact absurd hv (by simp)

/-- A thread that answers reads the server, after it has waited or appended its entry. -/
theorem of_answered {answer : Answer} {s : Server} (hv : .answered v answer s ∈ os) :
    s = m.server ∧ answer = m.server.answer v ∧
      ((v ∈ n.waiting ∧ m.server = n.server) ∨ .proposed v ∈ os) := by
  cases h with
  | silent _ _ _ hans => exact absurd hv (hans v answer s)
  | proposed => exact absurd hv (by simp)
  | atOnce request w =>
    obtain ⟨rfl, rfl, rfl⟩ : v = w ∧ answer = m.server.answer w ∧ s = m.server := by
      simpa using hv
    exact ⟨rfl, rfl, Or.inr List.mem_cons_self⟩
  | woken w hw hserver =>
    obtain ⟨rfl, rfl, rfl⟩ : v = w ∧ answer = m.server.answer w ∧ s = m.server := by
      simpa using hv
    exact ⟨rfl, rfl, Or.inl ⟨hw, hserver⟩⟩

end Serves

end Node

namespace Cluster

variable {conf : Config} {c c' : Cluster} {tr tr' evs : List (ℕ × Node.Event)} {a a' : Abstract}

/-- No node wins an election while one of its client threads waits for an entry that its log no
longer holds. -/
def NoOrphans (c : Cluster) : Action → Prop
  | .run i g => ∀ r ∈ c.fetch i g, (c.hosts i).server.wins r.1 = true →
      ∀ w ∈ (c.hosts i).waiting, (c.hosts i).server.Keeps w
  | _ => True

instance (c : Cluster) : DecidablePred c.NoOrphans
  | .run i g => inferInstanceAs (Decidable (∀ r ∈ c.fetch i g, _ → ∀ w ∈ _, Server.Keeps _ w))
  | .crash .. => .isTrue trivial
  | .crashIn .. => .isTrue trivial
  | .lose _ => .isTrue trivial

/-- What is assumed of a step so that clients can rely on their answers. -/
structure Orderly (c : Cluster) (x : Action) : Prop where
  admissible : c.Admissible x
  noOrphans : c.NoOrphans x

/-! ## What a thread relies on -/

/-- The log of a leader keeps the entry of a thread. -/
theorem Refined.kept_of_leader (h : Refined conf tr c a) (h' : Refined conf tr' c' a')
    (hg : Grows a a') {i : ℕ} (hi : i ∈ conf.members) (hrole : (c.hosts i).server.role = .leader)
    (hrole' : (c'.hosts i).server.role = .leader)
    (hterm : (c'.hosts i).server.metadata.currentTerm = (c.hosts i).server.metadata.currentTerm)
    {w : Waiter} (hw : (c.hosts i).server.Keeps w) : (c'.hosts i).server.Keeps w := by
  have hlog := h.sim.logInv.leader_log i ((h.standing hi).leads hrole)
  have hlog' := h'.sim.logInv.leader_log i ((h'.standing hi).leads hrole')
  rw [← (h'.refines hi).term, hterm, (h.refines hi).term] at hlog'
  rw [Server.Keeps, (h.refines hi).log, hlog] at hw
  rw [Server.Keeps, (h'.refines hi).log, hlog']
  exact hg.getElem?_leaderLog hw

/-- The log with which a node has won is kept by the leader. -/
theorem Refined.kept_of_won (h : Refined conf tr c a) {i : ℕ} (hi : i ∈ conf.members)
    (hrole : (c.hosts i).server.role = .leader) {log : List LogEntry}
    (hwon : .becomeLeader (c.hosts i).server.metadata.currentTerm log ∈ effects i tr)
    {w : Waiter} (hw : log[w.index - 1]? = some w.entry) : (c.hosts i).server.Keeps w := by
  obtain ⟨-, helect⟩ := h.explained hi hwon
  have hlog := h.sim.logInv.leader_log i ((h.standing hi).leads hrole)
  obtain ⟨r, hr⟩ := h.sim.logInv.electLog_isPrefix (a.term i)
  rw [← (h.refines hi).term, helect] at hr
  rw [Server.Keeps, (h.refines hi).log, hlog, ← (h.refines hi).term, ← hr,
    List.getElem?_append_left (List.getElem?_eq_some_iff.mp hw).1]
  exact hw

/-- The entry of a new thread is the next one in the log of its leader. -/
theorem Refined.index_of_propose (h : Refined conf tr c a) {i : ℕ} (hi : i ∈ conf.members)
    (hlen : (c.hosts i).server.logEntries.length + 1 < 2 ^ 64) {request : Request} {w : Waiter}
    {s : Server} (hp : (c.hosts i).server.propose request = some (w, s)) :
    w.index = (c.hosts i).server.logEntries.length + 1 := by
  obtain ⟨rfl, -⟩ := Server.propose_eq_some hp
  have hindexed : Indexed (c.hosts i).server.logEntries := by
    rw [(h.refines hi).log]
    exact h.sim.indexed_log (h.sim.logInv.log_matched i)
  show (_ + 1) % 2 ^ 64 = _
  rw [hindexed.getLastLogIndex, Nat.mod_eq_of_lt hlen]

theorem Server.keeps_of_propose {s s' : Server} {request : Request} {w : Waiter}
    (hp : s.propose request = some (w, s')) (hindex : w.index = s.logEntries.length + 1) :
    s'.Keeps w := by
  obtain ⟨-, -, -, hlog⟩ := Server.propose_eq_some hp
  rw [Server.Keeps, hlog, hindex]
  simp

/-! ## What was committed before a thread came -/

/-- An index that some node has committed, as the leader or behind it. -/
def CommittedUpTo (past : List (ℕ × Node.Event)) (n : ℕ) : Prop :=
  ∃ j, (∃ t log, (j, .effect (.advanceCommit t n log)) ∈ past) ∨
    (j, .effect (.followCommit n)) ∈ past

theorem CommittedUpTo.mono {n : ℕ} (h : CommittedUpTo tr n) (hsub : tr ⊆ tr') :
    CommittedUpTo tr' n := by
  rcases h with ⟨j, ⟨t, log, h⟩ | h⟩
  · exact ⟨j, Or.inl ⟨t, log, hsub h⟩⟩
  · exact ⟨j, Or.inr (hsub h)⟩

/-- What was committed was committed by a leader. -/
theorem Refined.exists_commit (h : Refined conf tr c a)
    (hrun : Run (machine conf) Admissible tr c) {n : ℕ} (hn : CommittedUpTo tr n) :
    ∃ t m, (t, m) ∈ a.commits ∧ n ≤ m := by
  rcases hn with ⟨j, ⟨t, log, hj⟩ | hj⟩
  · exact ⟨t, n, (h.explained_mem hrun hj).1, le_rfl⟩
  · exact h.explained_mem hrun hj

/-- An entry of another term was committed in the place of the entry of a thread. -/
def Replaced (a : Abstract) (w : Waiter) : Prop :=
  ∃ t n e, (t, n) ∈ a.commits ∧ w.index ≤ n ∧ (a.leaderLog t)[w.index - 1]? = some e ∧
    e.term ≠ w.term

theorem Replaced.mono {w : Waiter} (h : Replaced a w) (hg : Grows a a') : Replaced a' w := by
  obtain ⟨t, n, e, hc, hle, he, hne⟩ := h
  exact ⟨t, n, e, hg.commits hc, hle, hg.getElem?_leaderLog he, hne⟩

/-- What is committed when a thread comes. -/
theorem Refined.fenced_of_propose (h : Refined conf tr c a) (h' : Refined conf tr' c' a') {i : ℕ}
    (hi : i ∈ conf.members) (hc : Confined i a a')
    (hlen : (c.hosts i).server.logEntries.length + 1 < 2 ^ 64) {request : Request} {w : Waiter}
    {s : Server} (hp : (c.hosts i).server.propose request = some (w, s))
    (hterm : (c'.hosts i).server.metadata.currentTerm = s.metadata.currentTerm)
    (hlog : (c'.hosts i).server.logEntries = s.logEntries) {t n : ℕ} (hn : (t, n) ∈ a'.commits) :
    n ≤ w.index ∨ Replaced a' w := by
  have hindex := h.index_of_propose hi hlen hp
  obtain ⟨hw, hrole, hterms, hlogs⟩ := Server.propose_eq_some hp
  rw [(h.refines hi).log] at hindex
  rcases Nat.lt_or_ge w.index n with hlt | hge
  · obtain ⟨x, hx, hne⟩ := hc.term_ne_of_commit h.sim.logInv h'.sim.logInv h.sim.safetyInv
      h'.sim.safetyInv ((h.standing hi).leads hrole)
      (by rw [← (h'.refines hi).term, hterm, hterms, (h.refines hi).term])
      (e := w.entry) (by rw [← (h'.refines hi).log, hlog, hlogs, (h.refines hi).log]) hn
      (hindex ▸ hlt)
    refine Or.inr ⟨t, n, x, hn, hlt.le, ?_, ?_⟩
    · rw [hindex]
      exact hx
    · rw [hw, ← (h.refines hi).term] at *
      exact hne
  · exact Or.inl hge

/-! ## Events of a section -/

/-- The outputs of a section come after its effects. -/
theorem output_of_tag {i j l : ℕ} {es : List Effect} {os : List Output} {o : Output}
    (h : (tag i (es.map .effect ++ os.map .output))[l]? = some (j, .output o)) :
    j = i ∧ o ∈ os ∧ es.length ≤ l := by
  rw [tag, List.getElem?_map] at h
  obtain ⟨e, he, heq⟩ := Option.map_eq_some_iff.mp h
  obtain ⟨rfl, rfl⟩ := Prod.mk.inj heq
  rcases Nat.lt_or_ge l es.length with hlt | hge
  · rw [List.getElem?_append_left (by rwa [List.length_map]), List.getElem?_map] at he
    obtain ⟨e', -, heq⟩ := Option.map_eq_some_iff.mp he
    exact absurd heq (by simp)
  · have hmem := List.mem_of_getElem? he
    refine ⟨rfl, ?_, hge⟩
    simpa using hmem

theorem effect_mem_take {i j l : ℕ} {es : List Effect} {os : List Output} (hl : es.length ≤ l)
    {e : Effect} (h : (j, .effect e) ∈ tag i (es.map .effect ++ os.map .output)) :
    (j, .effect e) ∈ (tag i (es.map .effect ++ os.map .output)).take l := by
  obtain ⟨rfl, hmem⟩ := mem_tag.mp h
  rw [tag, List.map_append, List.take_append, List.mem_append]
  left
  rw [List.take_of_length_le (by simpa using hl)]
  simpa using hmem

/-! ## The invariant -/

/-- **The invariant of orderly runs.** -/
structure Attended (conf : Config) (tr : List (ℕ × Node.Event)) (c : Cluster) (a : Abstract) :
    Prop where
  refined : Refined conf tr c a
  kept : ∀ i ∈ conf.members, ∀ w ∈ (c.hosts i).waiting, 0 < w.index ∧
    ((c.hosts i).server.role = .leader → (c.hosts i).server.Keeps w)
  fenced : ∀ {k i : ℕ} {w : Waiter}, tr[k]? = some (i, .output (.proposed w)) →
    ∀ {n}, CommittedUpTo (tr.take k) n → n ≤ w.index ∨ Replaced a w

/-- A thread that has waited or has just come finds its entry at a leader. -/
theorem Attended.keeps (h : Attended conf tr c a) {i : ℕ} {g : Trigger} {x : Input}
    {net : List Packet} {m : Node} {os : List Output} (hi : i ∈ conf.members)
    (hord : c.Orderly (.run i g)) (hfetch : c.fetch i g = some (x, net))
    (hm : (c.hosts i).handle x = some (m, os)) (hg : Grows a a')
    (h' : Refined conf (tr ++ tag i (m.server.effects.map .effect ++ os.map .output)) c' a')
    (hself : c'.hosts i = m.flush) {w : Waiter}
    (hw : w ∈ (c.hosts i).waiting ∨ .proposed w ∈ os) :
    0 < w.index ∧ (m.server.role = .leader → m.server.Keeps w) := by
  rcases hw with hw | hw
  · obtain ⟨hpos, hkeep⟩ := h.kept i hi w hw
    refine ⟨hpos, fun hrole => ?_⟩
    have hrole' : (c'.hosts i).server.role = .leader := by rw [hself]; exact hrole
    have hgoal : (c'.hosts i).server.Keeps w → m.server.Keeps w := by rw [hself]; exact id
    rcases Node.handle_leader hm hrole with ⟨hlead, hterm⟩ | ⟨hwins, hmark⟩
    · exact hgoal (h.refined.kept_of_leader h' hg hi hlead hrole' (by rw [hself]; exact hterm)
        (hkeep hlead))
    · refine hgoal (h'.kept_of_won hi hrole' ?_
        (hord.noOrphans _ hfetch hwins w hw))
      rw [effects_append, effects_tag_self, Node.effects_section, hself]
      exact List.mem_append_right _ hmark
  · obtain ⟨request, hp⟩ := (Node.handle_serves hm).of_proposed hw
    have hindex := h.refined.index_of_propose hi hord.admissible.2.1 hp
    exact ⟨by omega, fun _ => Server.keeps_of_propose hp hindex⟩

theorem Attended.step (h : Attended conf tr c a) (hrun : Run (machine conf) Orderly tr c)
    {x : Action} (hord : c.Orderly x) (hs : step conf c x = some (c', evs)) :
    ∃ a', Grows a a' ∧ Attended conf (tr ++ evs) c' a' := by
  obtain ⟨a', hg, hconf, h'⟩ := h.refined.step hord.admissible hs
  have hrun' : Run (machine conf) Admissible (tr ++ evs) c' :=
    (hrun.next hord hs).mono fun _ _ => Orderly.admissible
  have hmoves := step_moves hs
  refine ⟨a', hg, h', fun j hj w hw => ?_, fun {k j w} hk {n} hn => ?_⟩
  · cases hmoves with
    | run i g x net m os hi hfetch hm =>
      by_cases hji : j = i
      · subst hji
        dsimp only at hw ⊢
        rw [Function.update_self] at hw ⊢
        exact h.keeps hi hord hfetch hm hg h' (Function.update_self ..)
          ((Node.handle_serves hm).mem_waiting hw)
      · dsimp only at hw ⊢
        rw [Function.update_of_ne hji] at hw ⊢
        exact h.kept j hj w hw
    | crash i retries hi =>
      by_cases hji : j = i
      · subst hji
        dsimp only at hw
        rw [Function.update_self] at hw
        exact absurd hw (by simp [Node.restart, Node.start])
      · dsimp only at hw ⊢
        rw [Function.update_of_ne hji] at hw ⊢
        exact h.kept j hj w hw
    | crashIn i g p retries x net m os hi hfetch hm => exact absurd hord.admissible id
    | lose p hp => exact h.kept j hj w hw
  · rcases Nat.lt_or_ge k tr.length with hlt | hge
    · rw [List.getElem?_append_left hlt] at hk
      rw [List.take_append_of_le_length hlt.le] at hn
      exact (h.fenced hk hn).imp_right fun hr => hr.mono hg
    rw [List.getElem?_append_right hge] at hk
    cases hmoves with
    | run i g x net m os hi hfetch hm =>
      obtain ⟨-, hmem, -⟩ := output_of_tag hk
      obtain ⟨request, hp⟩ := (Node.handle_serves hm).of_proposed hmem
      obtain ⟨t, n', hc, hle⟩ := h'.exists_commit hrun' (hn.mono (List.take_subset _ _))
      have hfence := h.refined.fenced_of_propose h' hi (hconf i g rfl) hord.admissible.2.1 hp
        (by dsimp only; rw [Function.update_self]; rfl)
        (by dsimp only; rw [Function.update_self]; rfl) hc
      exact hfence.imp_left hle.trans
    | crash i retries hi =>
      exact absurd (List.mem_of_getElem? hk) (by simp [tag])
    | crashIn i g p retries x net m os hi hfetch hm => exact absurd hord.admissible id
    | lose p hp => exact absurd hk (by simp)

/-- **Orderly runs keep the invariant.** -/
theorem attended (h : Run (machine conf) Orderly tr c) : ∃ a, Attended conf tr c a := by
  refine h.invariant (I := fun tr c => ∃ a, Attended conf tr c a) ?_ ?_
  · exact ⟨_, refined_initial conf, fun i hi w hw => absurd hw (by simp [machine, initial, Node.start]),
      fun {k i w} hk => absurd hk (by simp)⟩
  · rintro tr c x c' evs hrun ⟨a, ha⟩ hord hs
    obtain ⟨a', -, ha'⟩ := ha.step hrun hord hs
    exact ⟨a', ha'⟩

end Cluster

end RaftConsensus
