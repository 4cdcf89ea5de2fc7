import RaftConsensus.Clients
import RaftConsensus.Holdings
import RaftConsensus.Library.Linearizability
import RaftConsensus.Origins
import Mathlib.Order.Lattice.Nat

/-!
# The cluster is one store

Clients talk to different nodes at different times, and see one map from keys to values.  A
thread that serves a client begins when it appends its entry, and is over when it answers.
A `PUT` or a `DELETE` takes effect at the place of its entry in the committed log.  A `GET`
takes effect at the place up to which its node has applied the log when it answers, which
is not before its own entry.

* `keyValueStore`: the map, as a sequential program sees it.
* `Cluster.Serialized`: the invariant of orderly runs that gives each thread one place, and the
  threads that come later a later one.
* `Cluster.linearizable`: the history of an orderly run is linearizable.
* `Cluster.acknowledged_survives`: what a client has been told stays so.
-/

namespace RaftConsensus

open Protocol (Confined Grows)

/-! ## The store -/

/-- What a client learns when its request has taken effect. -/
inductive Result
  | done
  | read (value : Option Bytes)
  deriving DecidableEq, Repr

/-- The result in an answer, if there is one. -/
def Answer.result? : Answer → Option Result
  | value v => some (.read (some v))
  | notFound => some (.read none)
  | ok _ _ => some .done
  | _ => none

/-- **The store**: a map from keys to values, at first empty.  Its operations are the threads that
serve clients. -/
def keyValueStore : SequentialObject (Bytes → Option Bytes) Waiter Result where
  init _ := none
  apply m w :=
    match w.request with
    | .put key value => (Function.update m key (some value), .done)
    | .delete key => (Function.update m key none, .done)
    | .get key => (m, .read (m key))

/-- The request changes the store. -/
def Request.writes : Request → Bool
  | put _ _ | delete _ => true
  | get _ => false

theorem keyValueStore_looks {w : Waiter} (h : w.request.writes = false) : keyValueStore.Looks w := by
  intro m
  rcases hr : w.request with ⟨key, value⟩ | key | key <;> rw [hr] at h
  · exact absurd h (by simp [Request.writes])
  · exact absurd h (by simp [Request.writes])
  · simp [keyValueStore, hr]

namespace KVStateMachine

/-- A state machine applies a command as the store does the request. -/
theorem lookup_apply (m : KVStateMachine) (w : Waiter) :
    (fun k => (m.apply w.request.command).store.lookup k) =
      (keyValueStore.apply (fun k => m.store.lookup k) w).1 := by
  ext1 k
  rcases hr : w.request with ⟨key, value⟩ | key | key
  · simp only [apply, Request.command, keyValueStore, hr, if_true]
    by_cases hk : k = key
    · subst hk
      rw [AList.lookup_insert, Function.update_self]
    · rw [AList.lookup_insert_ne hk, Function.update_of_ne hk]
  · simp only [apply, Request.command, keyValueStore, hr, if_true]
    rw [if_neg (by decide)]
    by_cases hk : k = key
    · subst hk
      rw [AList.lookup_erase, Function.update_self]
    · rw [AList.lookup_erase_ne hk, Function.update_of_ne hk]
  · simp [apply, Request.command, keyValueStore, hr]

/-- Entries that belong to no operation change nothing, and those that do change what it changes. -/
theorem lookup_foldl (f : LogEntry → Option Waiter) {es : List LogEntry}
    (hf : ∀ e ∈ es, (∃ w, f e = some w ∧ w.entry = e) ∨ f e = none ∧ e.command = .noop)
    (m : KVStateMachine) :
    (fun k => (es.foldl (fun m e => m.apply e.command) m).store.lookup k) =
      keyValueStore.after (fun k => m.store.lookup k) (es.map f).reduceOption := by
  induction es generalizing m with
  | nil => rfl
  | cons e es ih =>
    have hes := fun x hx => hf x (List.mem_cons_of_mem e hx)
    rw [List.foldl_cons, ih hes, List.map_cons]
    rcases hf e List.mem_cons_self with ⟨w, hw, rfl⟩ | ⟨hnone, hnoop⟩
    · rw [hw, List.reduceOption_cons_of_some, SequentialObject.after_cons]
      exact congrArg (fun s => keyValueStore.after s _) (m.lookup_apply w)
    · rw [hnone, List.reduceOption_cons_of_none, hnoop]
      rfl

end KVStateMachine

namespace Node.Serves

variable {n m : Node} {os : List Output} (h : Serves n m os) {v : Waiter}

include h

/-- Threads that wait are told apart, and none of them is answered, if a new thread is none of the
old ones. -/
theorem waiting_nodup (hn : n.waiting.Nodup) (hnew : ∀ v, .proposed v ∈ os → v ∉ n.waiting) :
    m.waiting.Nodup ∧ ∀ v ∈ m.waiting, ∀ answer s, .answered v answer s ∉ os := by
  cases h with
  | silent _ hwait hprop hans =>
    rw [hwait]
    exact ⟨hn, fun v _ answer s => hans v answer s⟩
  | proposed request w hp hwait =>
    rw [hwait]
    refine ⟨List.nodup_append.mpr ⟨hn, List.nodup_singleton w, ?_⟩, by simp⟩
    rintro v hv u hu rfl
    rw [List.mem_singleton.mp hu] at hv
    exact hnew w List.mem_cons_self hv
  | atOnce request w hp hwait =>
    rw [hwait]
    refine ⟨hn, fun v hv answer s hmem => ?_⟩
    obtain ⟨rfl, -⟩ : v = w ∧ answer = m.server.answer w ∧ s = m.server := by simpa using hmem
    exact hnew v List.mem_cons_self hv
  | woken w hw hserver hwait =>
    rw [hwait]
    refine ⟨hn.erase w, fun v hv answer s hmem => ?_⟩
    obtain ⟨rfl, -⟩ : v = w ∧ answer = m.server.answer w ∧ s = m.server := by simpa using hmem
    exact hn.not_mem_erase hv

/-- A section answers one thread at most. -/
theorem answered_unique {answer answer' : Answer} {s s' : Server}
    (hv : .answered v answer s ∈ os) (hv' : .answered v answer' s' ∈ os) :
    answer = answer' ∧ s = s' := by
  obtain ⟨rfl, rfl, -⟩ := h.of_answered hv
  obtain ⟨rfl, rfl, -⟩ := h.of_answered hv'
  exact ⟨rfl, rfl⟩

/-- A thread comes before anything is told to a client. -/
theorem proposed_first {l : ℕ} (hl : os[l]? = some (.proposed v)) : l = 0 := by
  cases h with
  | silent _ _ hprop => exact absurd (List.mem_of_getElem? hl) (hprop v)
  | proposed =>
    rcases l with _ | l
    · rfl
    · exact absurd hl (by simp)
  | atOnce =>
    rcases l with _ | _ | l
    · rfl
    · exact absurd hl (by simp)
    · exact absurd hl (by simp)
  | woken =>
    rcases l with _ | l
    · exact absurd hl (by simp)
    · exact absurd hl (by simp)

end Node.Serves

namespace Cluster

variable {conf : Config} {c c' : Cluster} {tr tr' evs : List (ℕ × Node.Event)} {a a' : Abstract}

/-! ## The moment of an answer -/

/-- The result of a thread stands on what is committed: its entry is applied, and the state machine
that was read is the replay of a committed log. -/
structure Grounded (a : Abstract) (w : Waiter) (answer : Answer) (s : Server) : Prop where
  pos : 0 < w.index
  le : w.index ≤ s.metadata.lastApplied
  committed : ∃ t n, (t, n) ∈ a.commits ∧ t ≤ s.metadata.currentTerm ∧
    s.metadata.lastApplied ≤ n ∧ (a.leaderLog t)[w.index - 1]? = some w.entry ∧
      s.stateMachine = .replay ((a.leaderLog t).take s.metadata.lastApplied)
  answer_eq : answer =
    match w.request with
    | .get key => if s.stateMachine.has key then .value (s.stateMachine.get key) else .notFound
    | _ => .ok w.index w.term

theorem Grounded.mono {w : Waiter} {answer : Answer} {s : Server} (h : Grounded a w answer s)
    (hg : Grows a a') (hs : Protocol.SafetyInv conf.Majority a) : Grounded a' w answer s := by
  obtain ⟨t, n, hc, ht, hn, he, hm⟩ := h.committed
  refine ⟨h.pos, h.le, ⟨t, n, hg.commits hc, ht, hn, hg.getElem?_leaderLog he, ?_⟩, h.answer_eq⟩
  rw [hg.take_leaderLog (hn.trans (commit_le_leaderLog hs hc))]
  exact hm

/-- A leader that has kept the entry of a thread and gives a result is right. -/
theorem Refined.grounded (h : Refined conf tr c a) {i : ℕ} (hi : i ∈ conf.members) {s : Server}
    (hself : (c.hosts i).server = { s with effects := [] }) {w : Waiter} (hpos : 0 < w.index)
    (hkeep : s.role = .leader → s.Keeps w) (hres : (s.answer w).isResult = true) :
    Grounded a w (s.answer w) s := by
  have href := h.refines hi
  rw [hself] at href
  obtain ⟨hrole, hle, hans⟩ := Server.answer_isResult hres
  have hle' : w.index ≤ a.commit i := href.commit ▸ hle
  have happ : s.metadata.lastApplied = a.commit i := href.lastApplied
  rcases h.sim.safetyInv.commit_le i with h0 | ⟨t, n, hc, ht, hn, heq⟩
  · omega
  have hentry : (a.log i)[w.index - 1]? = some w.entry := href.log ▸ hkeep hrole
  refine ⟨hpos, happ ▸ hle', ⟨t, n, hc, ht.trans_eq href.term.symm, happ ▸ hn, ?_, ?_⟩, hans⟩
  · rw [← getElem?_eq_of_take_eq heq (by omega)]
    exact hentry
  · rw [happ, ← heq]
    exact href.stateMachine

/-! ## The moment of a proposal -/

/-- The place of a new entry: the next one in the log of its term. -/
theorem Refined.new_index (h : Refined conf tr c a) (h' : Refined conf tr' c' a') (hg : Grows a a')
    {i : ℕ} (hi : i ∈ conf.members) (hlen : (c.hosts i).server.logEntries.length + 1 < 2 ^ 64)
    {request : Request} {w : Waiter} {s : Server}
    (hp : (c.hosts i).server.propose request = some (w, s))
    (hself : (c'.hosts i).server = { s with effects := [] }) :
    w.index = (a.leaderLog w.term).length + 1 ∧ w.index ≤ (a'.leaderLog w.term).length := by
  have hindex := h.index_of_propose hi hlen hp
  obtain ⟨hw, hrole, hterm, hlog⟩ := Server.propose_eq_some hp
  have hwt : w.term = a.term i := by
    rw [hw]
    exact (h.refines hi).term
  have hlead := (h.standing hi).leads hrole
  have hold := h.sim.logInv.leader_log _ hlead
  have href := h'.refines hi
  rw [hself] at href
  have hterm' : a'.term i = a.term i := by
    rw [← href.term, ← (h.refines hi).term, ← hterm]
  have hnew := h'.sim.logInv.leader_log i (by
    rw [hterm']
    exact (hg.leader hlead).1)
  have hlog' : a'.log i = a.log i ++ [w.entry] := by
    rw [← href.log, ← (h.refines hi).log, ← hlog]
  rw [hwt, ← hold, ← hterm', ← hnew, hlog', hindex, (h.refines hi).log]
  simp

/-- What is committed before a thread comes lies before its entry, or another entry has been
committed in its place. -/
theorem Refined.fenced_before (h : Refined conf tr c a) (hg : Grows a a') {i : ℕ}
    (hi : i ∈ conf.members) (hlen : (c.hosts i).server.logEntries.length + 1 < 2 ^ 64)
    {request : Request} {w : Waiter} {s : Server}
    (hp : (c.hosts i).server.propose request = some (w, s)) {t n : ℕ} (hn : (t, n) ∈ a.commits) :
    n < w.index ∨ Replaced a' w := by
  have hindex := h.index_of_propose hi hlen hp
  obtain ⟨hw, hrole, -⟩ := Server.propose_eq_some hp
  have hwt : w.term = a.term i := by
    rw [hw]
    exact (h.refines hi).term
  rw [(h.refines hi).log] at hindex
  rcases Nat.lt_or_ge n w.index with hlt | hge
  · exact Or.inl hlt
  have hle := commit_le_leaderLog h.sim.safetyInv hn
  obtain ⟨x, hx⟩ : ∃ x, (a.leaderLog t)[w.index - 1]? = some x :=
    ⟨_, List.getElem?_eq_getElem (by omega)⟩
  refine Or.inr ⟨t, n, x, hg.commits hn, hge, hg.getElem?_leaderLog hx, fun heq => ?_⟩
  -- an entry of this term at this place would be in the leader's log
  have hpre := (h.sim.logInv.leader_matched t _ _ hx).length_le
  have hlead := h.sim.logInv.leader_log i ((h.standing hi).leads hrole)
  have hxt : Protocol.Termed.term x = a.term i := heq.trans hwt
  rw [hxt, ← hlead, List.length_take] at hpre
  omega

/-! ## The invariant -/

/-- **The invariant of the clients' threads.**  Each is answered once, at a place of its own, and
those that come later get a later place. -/
structure Serialized (conf : Config) (tr : List (ℕ × Node.Event)) (c : Cluster) (a : Abstract) :
    Prop where
  attended : Attended conf tr c a
  nodup : ∀ i ∈ conf.members, (c.hosts i).waiting.Nodup
  waits : ∀ i ∈ conf.members, ∀ w ∈ (c.hosts i).waiting, (i, .output (.proposed w)) ∈ tr ∧
    ∀ j answer s, (j, .output (.answered w answer s)) ∉ tr
  held : ∀ {i w}, (i, .output (.proposed w)) ∈ tr → w.index ≤ (a.leaderLog w.term).length
  home : ∀ {i j w}, (i, .output (.proposed w)) ∈ tr → (j, .output (.proposed w)) ∈ tr → i = j
  came : ∀ {i w answer s}, (i, .output (.answered w answer s)) ∈ tr →
    (i, .output (.proposed w)) ∈ tr
  once : ∀ {i j w answer answer' s s'}, (i, .output (.answered w answer s)) ∈ tr →
    (j, .output (.answered w answer' s')) ∈ tr → answer = answer' ∧ s = s'
  grounded : ∀ {i w answer s}, (i, .output (.answered w answer s)) ∈ tr →
    answer.isResult = true → Grounded a w answer s
  ordered : ∀ {k j w'}, tr[k]? = some (j, .output (.proposed w')) → ∀ {i w answer s},
    (i, .output (.answered w answer s)) ∈ tr.take k → answer.isResult = true →
      s.metadata.lastApplied < w'.index ∨ Replaced a w'

/-- A thread that has just come was not there before. -/
theorem Serialized.fresh (h : Serialized conf tr c a) (h' : Refined conf tr' c' a')
    (hg : Grows a a') {i : ℕ} (hi : i ∈ conf.members)
    (hlen : (c.hosts i).server.logEntries.length + 1 < 2 ^ 64) {request : Request} {w : Waiter}
    {s : Server} (hp : (c.hosts i).server.propose request = some (w, s))
    (hself : (c'.hosts i).server = { s with effects := [] }) (j : ℕ) :
    (j, .output (.proposed w)) ∉ tr := by
  intro hmem
  have hle := h.held hmem
  have hnew := (h.attended.refined.new_index h' hg hi hlen hp hself).1
  omega

/-- A step that neither takes a request nor answers one. -/
theorem Serialized.quiet (h : Serialized conf tr c a) (h' : Attended conf (tr ++ evs) c' a')
    (hg : Grows a a') (hprop : ∀ i w, (i, .output (.proposed w)) ∉ evs)
    (hans : ∀ i w answer s, (i, .output (.answered w answer s)) ∉ evs)
    (hwait : ∀ i ∈ conf.members, (c'.hosts i).waiting.Sublist (c.hosts i).waiting) :
    Serialized conf (tr ++ evs) c' a' := by
  have hp : ∀ {i w}, (i, .output (.proposed w)) ∈ tr ++ evs → (i, .output (.proposed w)) ∈ tr :=
    fun hmem => (List.mem_append.mp hmem).resolve_right (hprop _ _)
  have ha : ∀ {i w answer s}, (i, .output (.answered w answer s)) ∈ tr ++ evs →
      (i, .output (.answered w answer s)) ∈ tr :=
    fun hmem => (List.mem_append.mp hmem).resolve_right (hans _ _ _ _)
  exact
    { attended := h'
      nodup := fun i hi => (h.nodup i hi).sublist (hwait i hi)
      waits := fun i hi w hw => by
        obtain ⟨hcame, hnot⟩ := h.waits i hi w ((hwait i hi).subset hw)
        exact ⟨List.mem_append_left _ hcame, fun j answer s hmem => hnot j answer s (ha hmem)⟩
      held := fun hmem => (h.held (hp hmem)).trans (hg.leaderLog _).length_le
      home := fun hmem hmem' => h.home (hp hmem) (hp hmem')
      came := fun hmem => List.mem_append_left _ (h.came (ha hmem))
      once := fun hmem hmem' => h.once (ha hmem) (ha hmem')
      grounded := fun hmem hres =>
        (h.grounded (ha hmem) hres).mono hg h.attended.refined.sim.safetyInv
      ordered := fun {k j w'} hk {i w answer s} hmem hres => by
        have hlt : k < tr.length := by
          by_contra hge
          rw [List.getElem?_append_right (not_lt.mp hge)] at hk
          exact hprop _ _ (List.mem_of_getElem? hk)
        rw [List.getElem?_append_left hlt] at hk
        rw [List.take_append_of_le_length hlt.le] at hmem
        exact (h.ordered hk hmem hres).imp_right fun hr => hr.mono hg }

/-- The outputs of a section are the outputs among its events. -/
theorem mem_tag_output {i j : ℕ} {es : List Effect} {os : List Output} {o : Output} :
    (j, .output o) ∈ tag i (es.map .effect ++ os.map .output) ↔ j = i ∧ o ∈ os := by
  rw [mem_tag]
  simp

/-- Before a thread comes there are only effects in the section that lets it come. -/
theorem output_notMem_take {i j l : ℕ} {es : List Effect} {os : List Output} {n m : Node}
    (hserves : Node.Serves n m os) {w : Waiter}
    (hl : (tag i (es.map .effect ++ os.map .output))[l]? = some (j, .output (.proposed w)))
    {k : ℕ} {o : Output} :
    (k, .output o) ∉ (tag i (es.map .effect ++ os.map .output)).take l := by
  obtain ⟨-, -, hle⟩ := output_of_tag hl
  rw [tag, List.getElem?_map] at hl
  obtain ⟨e, he, heq⟩ := Option.map_eq_some_iff.mp hl
  obtain ⟨-, rfl⟩ := Prod.mk.inj heq
  rw [List.getElem?_append_right (by rwa [List.length_map]), List.length_map, List.getElem?_map]
    at he
  obtain ⟨o', ho', heq'⟩ := Option.map_eq_some_iff.mp he
  obtain rfl := Node.Event.output.inj heq'
  obtain rfl : l = es.length := by
    have := hserves.proposed_first ho'
    omega
  rw [tag, List.map_append, List.take_append_of_le_length (by simp),
    List.take_of_length_le (by simp)]
  simp

/-- **A section that serves clients.** -/
theorem Serialized.run (h : Serialized conf tr c a) {i : ℕ} {g : Trigger} {x : Input}
    {net : List Packet} {m : Node} {os : List Output} (hi : i ∈ conf.members)
    (hord : c.Orderly (.run i g)) (hfetch : c.fetch i g = some (x, net))
    (hm : (c.hosts i).handle x = some (m, os)) (hg : Grows a a')
    (h' : Attended conf (tr ++ tag i (m.server.effects.map .effect ++ os.map .output)) c' a')
    (hself : c'.hosts i = m.flush) (hother : ∀ j, j ≠ i → c'.hosts j = c.hosts j) :
    Serialized conf (tr ++ tag i (m.server.effects.map .effect ++ os.map .output)) c' a' := by
  have hserves := Node.handle_serves hm
  have href := h.attended.refined
  have hserver : (c'.hosts i).server = { m.server with effects := [] } := by rw [hself]; rfl
  -- what comes is new, and what is answered has waited or has come
  have hnew : ∀ v, .proposed v ∈ os → (∀ j, (j, .output (.proposed v)) ∉ tr) ∧
      v.index ≤ (a'.leaderLog v.term).length ∧
        ∀ {t n}, (t, n) ∈ a.commits → n < v.index ∨ Replaced a' v := by
    intro v hv
    obtain ⟨request, hp⟩ := hserves.of_proposed hv
    exact ⟨h.fresh h'.refined hg hi hord.admissible.2.1 hp hserver,
      (href.new_index h'.refined hg hi hord.admissible.2.1 hp hserver).2,
      fun hn => href.fenced_before hg hi hord.admissible.2.1 hp hn⟩
  have hanswered : ∀ {v answer s}, .answered v answer s ∈ os →
      ((i, .output (.proposed v)) ∈ tr ∨ .proposed v ∈ os) ∧
        ∀ j answer s, (j, .output (.answered v answer s)) ∉ tr := by
    intro v answer s hv
    obtain ⟨-, -, ⟨hw, -⟩ | hw⟩ := hserves.of_answered hv
    · obtain ⟨hcame, hnot⟩ := h.waits i hi v hw
      exact ⟨Or.inl hcame, hnot⟩
    · exact ⟨Or.inr hw, fun j answer s hmem => (hnew v hw).1 j (h.came hmem)⟩
  have hwait := hserves.waiting_nodup (h.nodup i hi) fun v hv hmem =>
    (hnew v hv).1 i (h.waits i hi v hmem).1
  refine
    { attended := h'
      nodup := fun j hj => ?_
      waits := fun j hj w hw => ?_
      held := fun {j w} hmem => ?_
      home := fun {j k w} hmem hmem' => ?_
      came := fun {j w answer s} hmem => ?_
      once := fun {j k w answer answer' s s'} hmem hmem' => ?_
      grounded := fun {j w answer s} hmem hres => ?_
      ordered := fun {k j w'} hk {j' w answer s} hmem hres => ?_ }
  · by_cases hji : j = i
    · subst hji
      rw [hself]
      exact hwait.1
    · rw [hother j hji]
      exact h.nodup j hj
  · by_cases hji : j = i
    · subst hji
      rw [hself] at hw
      have hold := hserves.mem_waiting hw
      refine ⟨?_, fun k answer s hmem => ?_⟩
      · rcases hold with hold | hold
        · exact List.mem_append_left _ (h.waits j hj w hold).1
        · exact List.mem_append_right _ (mem_tag_output.mpr ⟨rfl, hold⟩)
      · rcases List.mem_append.mp hmem with hmem | hmem
        · rcases hold with hold | hold
          · exact (h.waits j hj w hold).2 k answer s hmem
          · exact (hnew w hold).1 k (h.came hmem)
        · exact hwait.2 w hw answer s (mem_tag_output.mp hmem).2
    · rw [hother j hji] at hw
      obtain ⟨hcame, hnot⟩ := h.waits j hj w hw
      refine ⟨List.mem_append_left _ hcame, fun k answer s hmem => ?_⟩
      rcases List.mem_append.mp hmem with hmem | hmem
      · exact hnot k answer s hmem
      · -- the thread of another node is not answered here
        rcases (hanswered (mem_tag_output.mp hmem).2).1 with hcame' | hcame'
        · exact hji (h.home hcame hcame')
        · exact (hnew w hcame').1 j hcame
  · rcases List.mem_append.mp hmem with hmem | hmem
    · exact (h.held hmem).trans (hg.leaderLog _).length_le
    · exact (hnew w (mem_tag_output.mp hmem).2).2.1
  · rcases List.mem_append.mp hmem with hmem | hmem <;>
      rcases List.mem_append.mp hmem' with hmem' | hmem'
    · exact h.home hmem hmem'
    · exact absurd hmem ((hnew w (mem_tag_output.mp hmem').2).1 j)
    · exact absurd hmem' ((hnew w (mem_tag_output.mp hmem).2).1 k)
    · rw [(mem_tag_output.mp hmem).1, (mem_tag_output.mp hmem').1]
  · rcases List.mem_append.mp hmem with hmem | hmem
    · exact List.mem_append_left _ (h.came hmem)
    · obtain ⟨rfl, hans⟩ := mem_tag_output.mp hmem
      rcases (hanswered hans).1 with hcame | hcame
      · exact List.mem_append_left _ hcame
      · exact List.mem_append_right _ (mem_tag_output.mpr ⟨rfl, hcame⟩)
  · rcases List.mem_append.mp hmem with hmem | hmem <;>
      rcases List.mem_append.mp hmem' with hmem' | hmem'
    · exact h.once hmem hmem'
    · exact absurd hmem ((hanswered (mem_tag_output.mp hmem').2).2 j answer s)
    · exact absurd hmem' ((hanswered (mem_tag_output.mp hmem).2).2 k answer' s')
    · exact hserves.answered_unique (mem_tag_output.mp hmem).2 (mem_tag_output.mp hmem').2
  · rcases List.mem_append.mp hmem with hmem | hmem
    · exact (h.grounded hmem hres).mono hg href.sim.safetyInv
    · obtain ⟨-, hmem⟩ := mem_tag_output.mp hmem
      obtain ⟨rfl, rfl, hw⟩ := hserves.of_answered hmem
      obtain ⟨hpos, hkeep⟩ := h.attended.keeps hi hord hfetch hm hg h'.refined hself
        (hw.imp_left And.left)
      exact h'.refined.grounded hi hserver hpos hkeep hres
  · rcases Nat.lt_or_ge k tr.length with hlt | hge
    · rw [List.getElem?_append_left hlt] at hk
      rw [List.take_append_of_le_length hlt.le] at hmem
      exact (h.ordered hk hmem hres).imp_right fun hr => hr.mono hg
    · rw [List.getElem?_append_right hge] at hk
      rw [List.take_append, List.take_of_length_le hge] at hmem
      have hmem := (List.mem_append.mp hmem).resolve_right (output_notMem_take hserves hk)
      obtain ⟨-, hw'⟩ := mem_tag_output.mp (List.mem_of_getElem? hk)
      obtain ⟨t, n, hc, -, hn, -⟩ := (h.grounded hmem hres).committed
      exact ((hnew w' hw').2.2 hc).imp_left fun hlt => hn.trans_lt hlt

theorem Serialized.step (h : Serialized conf tr c a) (hrun : Run (machine conf) Orderly tr c)
    {x : Action} (hord : c.Orderly x) (hs : step conf c x = some (c', evs)) :
    ∃ a', Grows a a' ∧ Serialized conf (tr ++ evs) c' a' := by
  obtain ⟨a', hg, h'⟩ := h.attended.step hrun hord hs
  refine ⟨a', hg, ?_⟩
  cases step_moves hs with
  | run i g x net m os hi hfetch hm =>
    exact h.run hi hord hfetch hm hg h' (Function.update_self ..)
      fun j hj => Function.update_of_ne hj ..
  | crash i retries hi =>
    refine h.quiet h' hg (by simp [tag]) (by simp [tag]) fun j hj => ?_
    by_cases hji : j = i
    · subst hji
      dsimp only
      rw [Function.update_self]
      exact List.nil_sublist _
    · dsimp only
      rw [Function.update_of_ne hji]
  | crashIn i g p retries x net m os hi hfetch hm => exact absurd hord.admissible id
  | lose p hp => exact h.quiet h' hg (by simp) (by simp) fun j hj => List.Sublist.refl _

/-- **Orderly runs give each thread its place.** -/
theorem serialized (h : Run (machine conf) Orderly tr c) : ∃ a, Serialized conf tr c a := by
  refine h.invariant (I := fun tr c => ∃ a, Serialized conf tr c a) ?_ ?_
  · obtain ⟨a, ha⟩ := attended (Run.start (M := machine conf) (P := Orderly))
    exact ⟨a,
      { attended := ha
        nodup := fun i hi => List.nodup_nil
        waits := fun i hi w hw => absurd hw List.not_mem_nil
        held := fun hmem => absurd hmem List.not_mem_nil
        home := fun hmem => absurd hmem List.not_mem_nil
        came := fun hmem => absurd hmem List.not_mem_nil
        once := fun hmem => absurd hmem List.not_mem_nil
        grounded := fun hmem => absurd hmem List.not_mem_nil
        ordered := fun hk => absurd hk (by simp) }⟩
  · rintro tr c x c' evs hrun ⟨a, ha⟩ hord hs
    obtain ⟨a', -, ha'⟩ := ha.step hrun hord hs
    exact ⟨a', ha'⟩

/-! ## The history of a run -/

/-- What an event is at the interface of the store. -/
def call? : ℕ × Node.Event → Option (Call Waiter Result)
  | (_, .output (.proposed w)) => some (.invoke w)
  | (_, .output (.answered w answer _)) => answer.result?.map (.respond w)
  | _ => none

/-- What the clients see of a run: which threads have begun, and which have ended with a result. -/
def history (tr : List (ℕ × Node.Event)) : List (Call Waiter Result) := tr.filterMap call?

theorem call?_eq_invoke {e : ℕ × Node.Event} {w : Waiter} (h : call? e = some (.invoke w)) :
    ∃ i, e = (i, .output (.proposed w)) := by
  unfold call? at h
  split at h
  · next i v =>
    obtain rfl := Call.invoke.inj (Option.some.inj h)
    exact ⟨i, rfl⟩
  · obtain ⟨r, -, heq⟩ := Option.map_eq_some_iff.mp h
    exact absurd heq (by simp)
  · exact absurd h (by simp)

theorem call?_eq_respond {e : ℕ × Node.Event} {w : Waiter} {r : Result}
    (h : call? e = some (.respond w r)) :
    ∃ i answer s, e = (i, .output (.answered w answer s)) ∧ answer.result? = some r := by
  unfold call? at h
  split at h
  · exact absurd h (by simp)
  · next i v answer s =>
    obtain ⟨r', hr, heq⟩ := Option.map_eq_some_iff.mp h
    obtain ⟨rfl, rfl⟩ := Call.respond.inj heq
    exact ⟨i, answer, s, rfl, hr⟩
  · exact absurd h (by simp)

theorem isResult_of_result? {answer : Answer} {r : Result} (h : answer.result? = some r) :
    answer.isResult = true := by
  cases answer <;> first | rfl | exact absurd h (by simp [Answer.result?])

theorem respond_mem_history {w : Waiter} {r : Result} (h : .respond w r ∈ history tr) :
    ∃ i answer s, (i, .output (.answered w answer s)) ∈ tr ∧ answer.result? = some r := by
  obtain ⟨e, he, heq⟩ := List.mem_filterMap.mp h
  obtain ⟨i, answer, s, rfl, hr⟩ := call?_eq_respond heq
  exact ⟨i, answer, s, he, hr⟩

theorem invoke_mem_history {i : ℕ} {w : Waiter} (h : (i, .output (.proposed w)) ∈ tr) :
    .invoke w ∈ history tr := List.mem_filterMap.mpr ⟨_, h, rfl⟩

/-- A thread that is over before another one comes, in the trace. -/
theorem precedes_history {w w' : Waiter} (h : Precedes (history tr) w w') :
    ∃ k i j answer s, tr[k]? = some (j, .output (.proposed w')) ∧
      (i, .output (.answered w answer s)) ∈ tr.take k ∧ answer.isResult = true := by
  obtain ⟨h₁, h₂, r, heq, hr, hw'⟩ := h
  obtain ⟨t₁, t₂, rfl, rfl, rfl⟩ := List.filterMap_eq_append_iff.mp heq
  obtain ⟨i, answer, s, hmem, hres⟩ := respond_mem_history hr
  obtain ⟨e, he, heq'⟩ := List.mem_filterMap.mp hw'
  obtain ⟨j, rfl⟩ := call?_eq_invoke heq'
  obtain ⟨l, hl⟩ := List.mem_iff_getElem?.mp he
  refine ⟨t₁.length + l, i, j, answer, s, ?_, ?_, isResult_of_result? hres⟩
  · rw [List.getElem?_append_right (by omega), Nat.add_sub_cancel_left]
    exact hl
  · rw [List.take_length_add_append]
    exact List.mem_append_left _ hmem

/-! ## The places of the threads -/

/-- The threads of a run. -/
def threads (tr : List (ℕ × Node.Event)) : List Waiter :=
  tr.filterMap fun
    | (_, .output (.proposed w)) => some w
    | _ => none

theorem mem_threads {w : Waiter} : w ∈ threads tr ↔ ∃ i, (i, .output (.proposed w)) ∈ tr := by
  rw [threads, List.mem_filterMap]
  constructor
  · rintro ⟨⟨i, _ | o⟩, he, heq⟩
    · exact absurd heq (by simp)
    · cases o with
      | proposed v =>
        obtain rfl := Option.some.inj heq
        exact ⟨i, he⟩
      | _ => exact absurd heq (by simp)
  · rintro ⟨i, he⟩
    exact ⟨_, he, rfl⟩

/-- The thread that has written an entry, if one has. -/
def writer (tr : List (ℕ × Node.Event)) (e : LogEntry) : Option Waiter :=
  (threads tr).find? fun w => w.entry = e && w.request.writes

/-- The last applied index at which a thread was answered. -/
def readAt (tr : List (ℕ × Node.Event)) (w : Waiter) : ℕ :=
  (tr.findSome? fun
    | (_, .output (.answered v _ s)) => if v = w then some s.metadata.lastApplied else none
    | _ => none).getD 0

/-- The threads that have read the state after the first `n` entries. -/
def readers (tr : List (ℕ × Node.Event)) (n : ℕ) : List Waiter :=
  (tr.filterMap fun
    | (_, .output (.answered w answer s)) =>
      if answer.isResult && !w.request.writes && s.metadata.lastApplied == n then some w else none
    | _ => none).dedup

theorem mem_readers {w : Waiter} {n : ℕ} : w ∈ readers tr n ↔
    ∃ i answer s, (i, .output (.answered w answer s)) ∈ tr ∧ answer.isResult = true ∧
      w.request.writes = false ∧ s.metadata.lastApplied = n := by
  rw [readers, List.mem_dedup, List.mem_filterMap]
  constructor
  · rintro ⟨⟨i, _ | o⟩, he, heq⟩
    · exact absurd heq (by simp)
    · cases o with
      | answered v answer s =>
        dsimp only at heq
        split at heq
        · next hcond =>
          obtain rfl := Option.some.inj heq
          simp only [Bool.and_eq_true, Bool.not_eq_true', beq_iff_eq] at hcond
          exact ⟨i, answer, s, he, hcond.1.1, hcond.1.2, hcond.2⟩
        · exact absurd heq (by simp)
      | _ => exact absurd heq (by simp)
  · rintro ⟨i, answer, s, he, hres, hw, hn⟩
    exact ⟨_, he, by simp [hres, hw, hn]⟩

/-- The place of a thread: at its entry if it writes, and behind what was applied if it reads. -/
def place (tr : List (ℕ × Node.Event)) (w : Waiter) : ℕ :=
  if w.request.writes then 2 * (w.index - 1) + 1 else 2 * readAt tr w

/-- An entry of a request that writes belongs to one thread. -/
theorem entry_injective {w w' : Waiter} (hw : w.request.writes = true)
    (hw' : w'.request.writes = true) (h : w.entry = w'.entry) : w = w' := by
  rcases w with ⟨r, i, t⟩
  rcases w' with ⟨r', i', t'⟩
  obtain ⟨rfl, rfl, hc⟩ := LogEntry.mk.inj h
  rcases r with ⟨k, v⟩ | k | k <;> rcases r' with ⟨k', v'⟩ | k' | k'
  case get.put | get.delete | get.get => exact absurd hw (by simp [Request.writes])
  case put.get | delete.get => exact absurd hw' (by simp [Request.writes])
  case put.delete | delete.put => exact absurd (Command.mk.inj hc).1 (by decide)
  case put.put =>
    obtain ⟨-, -, -, rfl, rfl⟩ := Command.mk.inj hc
    rfl
  case delete.delete =>
    obtain ⟨-, -, -, rfl, -⟩ := Command.mk.inj hc
    rfl

theorem writer_eq_some {e : LogEntry} {w : Waiter} (h : writer tr e = some w) :
    w ∈ threads tr ∧ w.entry = e ∧ w.request.writes = true := by
  have hp := List.find?_some h
  simp only [Bool.and_eq_true, decide_eq_true_eq] at hp
  exact ⟨List.mem_of_find?_eq_some h, hp.1, hp.2⟩

theorem writer_entry {i : ℕ} {w : Waiter} (h : (i, .output (.proposed w)) ∈ tr)
    (hw : w.request.writes = true) : writer tr w.entry = some w := by
  rcases hf : writer tr w.entry with _ | v
  · have := List.find?_eq_none.mp hf w (mem_threads.mpr ⟨i, h⟩)
    exact absurd hw (by simpa using this)
  · obtain ⟨-, hentry, hv⟩ := writer_eq_some hf
    rw [entry_injective hv hw hentry]

/-- A thread that was answered has its place in the trace. -/
theorem Serialized.readAt_eq (h : Serialized conf tr c a) {i : ℕ} {w : Waiter} {answer : Answer}
    {s : Server} (hmem : (i, .output (.answered w answer s)) ∈ tr) :
    readAt tr w = s.metadata.lastApplied := by
  unfold readAt
  rcases hf : tr.findSome? _ with _ | n
  · exact absurd (List.findSome?_eq_none_iff.mp hf _ hmem) (by simp)
  · obtain ⟨⟨j, _ | o⟩, he, heq⟩ := List.exists_of_findSome?_eq_some hf
    · exact absurd heq (by simp)
    · cases o with
      | answered v answer' s' =>
        dsimp only at heq
        split at heq
        · next hv =>
          subst hv
          obtain ⟨-, rfl⟩ := h.once he hmem
          exact (Option.some.inj heq).symm
        · exact absurd heq (by simp)
      | _ => exact absurd heq (by simp)

/-! ## The committed log -/

/-- `L` is what the leaders have committed, all of it. -/
structure CommittedLog (a : Abstract) (L : List LogEntry) : Prop where
  covers : ∀ {t n}, (t, n) ∈ a.commits → n ≤ L.length ∧ (a.leaderLog t).take n = L.take n
  committed : L = [] ∨ ∃ t, (t, L.length) ∈ a.commits ∧ L = (a.leaderLog t).take L.length

/-- The logs of the leaders are short, so one of the commits is the longest. -/
theorem Refined.exists_committedLog (h : Refined conf tr c a) : ∃ L, CommittedLog a L := by
  by_cases hne : ∃ n t, (t, n) ∈ a.commits
  · have hbound : BddAbove {n | ∃ t, (t, n) ∈ a.commits} := by
      refine ⟨2 ^ 64, fun n hn => ?_⟩
      obtain ⟨t, hc⟩ := hn
      exact (commit_le_leaderLog h.sim.safetyInv hc).trans (h.sim.short t).le
    obtain ⟨t, hc⟩ : ∃ t, (t, sSup {n | ∃ t, (t, n) ∈ a.commits}) ∈ a.commits :=
      Nat.sSup_mem hne hbound
    generalize hN : sSup {n | ∃ t, (t, n) ∈ a.commits} = N at hc
    have hlen : ((a.leaderLog t).take N).length = N :=
      List.length_take_of_le (commit_le_leaderLog h.sim.safetyInv hc)
    refine ⟨(a.leaderLog t).take N, fun {t' n'} hc' => ?_, Or.inr ⟨t, ?_, ?_⟩⟩
    · have hle : n' ≤ N := hN ▸ le_csSup hbound ⟨t', hc'⟩
      refine ⟨hlen.symm ▸ hle, List.ext_getElem? fun k => ?_⟩
      rw [List.take_take, min_eq_left hle]
      rcases Nat.lt_or_ge k n' with hk | hk
      · rw [List.getElem?_take_of_lt hk, List.getElem?_take_of_lt hk]
        exact Protocol.getElem?_commit_eq (majorities_meet conf) h.sim.logInv h.sim.safetyInv
          hc' hc hk (hk.trans_le hle)
      · rw [List.getElem?_take_eq_none hk, List.getElem?_take_eq_none hk]
    · rwa [hlen]
    · rw [hlen]
  · exact ⟨[], fun hc => absurd ⟨_, _, hc⟩ hne, Or.inl rfl⟩

theorem CommittedLog.indexed {L : List LogEntry} (h : CommittedLog a L)
    (href : Refined conf tr c a) : Indexed L := by
  rcases h.committed with rfl | ⟨t, -, heq⟩
  · exact Indexed.nil
  · rw [heq]
    exact (href.sim.indexed t).take _

/-- Some member has all of the committed log, so its entries have an origin. -/
theorem CommittedLog.origin {L : List LogEntry} (h : CommittedLog a L) (href : Refined conf tr c a)
    (horig : Originates conf tr c) : ∀ e ∈ L, Origin tr e := by
  rcases h.committed with rfl | ⟨t, hc, heq⟩
  · exact fun e he => absurd he List.not_mem_nil
  · obtain ⟨V, hV, hheld⟩ := Protocol.committed_held (majorities_meet conf) href.sim.logInv
      href.sim.safetyInv hc
    obtain ⟨v, hv, -⟩ := conf.majority_inter hV hV
    rw [← heq] at hheld
    refine fun e he => horig.log v (hV.1 hv) e ?_
    rw [(href.refines (hV.1 hv)).log]
    exact (hheld v hv).subset he

/-- An entry that is committed has not been replaced. -/
theorem CommittedLog.not_replaced {L : List LogEntry} (h : CommittedLog a L) {w : Waiter}
    (hpos : 0 < w.index) (he : L[w.index - 1]? = some w.entry) : ¬ Replaced a w := by
  rintro ⟨t, n, e, hc, hn, he', hne⟩
  rw [getElem?_eq_of_take_eq (h.covers hc).2 (by omega), he] at he'
  exact hne (by rw [← Option.some.inj he']; rfl)

/-- What a result stands on, in terms of the committed log. -/
theorem CommittedLog.of_grounded {L : List LogEntry} (h : CommittedLog a L) {w : Waiter}
    {answer : Answer} {s : Server} (hg : Grounded a w answer s) :
    s.metadata.lastApplied ≤ L.length ∧ L[w.index - 1]? = some w.entry ∧
      s.stateMachine = .replay (L.take s.metadata.lastApplied) := by
  obtain ⟨t, n, hc, -, hn, he, hm⟩ := hg.committed
  obtain ⟨hlen, htake⟩ := h.covers hc
  have hle := hg.le
  have hpos := hg.pos
  refine ⟨hn.trans hlen, ?_, ?_⟩
  · rw [← getElem?_eq_of_take_eq htake (by omega), he]
  · rw [hm, take_eq_of_take_eq htake hn]

/-! ## The order of the threads -/

/-- An entry with an origin was written by a thread, or changes nothing. -/
theorem Origin.writer {e : LogEntry} (h : Origin tr e) :
    (∃ w, writer tr e = some w ∧ w.entry = e) ∨ writer tr e = none ∧ e.command = .noop := by
  rcases hw : Cluster.writer tr e with _ | w
  · refine Or.inr ⟨rfl, ?_⟩
    cases h with
    | noop i log hwon hindex hcommand => exact hcommand
    | request i w log hwon hproposed hentry =>
      subst hentry
      rcases hr : w.request with ⟨key, value⟩ | key | key
      · rw [writer_entry hproposed (by rw [hr]; rfl)] at hw
        exact absurd hw (by simp)
      · rw [writer_entry hproposed (by rw [hr]; rfl)] at hw
        exact absurd hw (by simp)
      · rw [Waiter.entry, hr]
        rfl
  · exact Or.inl ⟨w, rfl, (writer_eq_some hw).2.1⟩

/-- The store after a part of the committed log is the state machine that has applied it. -/
theorem after_writers {L : List LogEntry} (horig : ∀ e ∈ L, Origin tr e) (k : ℕ) :
    keyValueStore.after keyValueStore.init ((L.map (writer tr)).take k).reduceOption =
      fun key => (KVStateMachine.replay (L.take k)).store.lookup key := by
  have hes : ∀ e ∈ L.take k, (∃ w, writer tr e = some w ∧ w.entry = e) ∨
      writer tr e = none ∧ e.command = .noop := fun e he =>
    (horig e (List.mem_of_mem_take he)).writer
  rw [← List.map_take]
  exact (KVStateMachine.lookup_foldl (writer tr) hes .empty).symm

/-- The order in which the threads of a run take effect, along the committed log. -/
def order (tr : List (ℕ × Node.Event)) (L : List LogEntry) : List Waiter :=
  weave (readers tr) 0 (L.map (writer tr))

section Order

variable {L : List LogEntry}

theorem getElem?_writers {k : ℕ} {w : Waiter} (h : (L.map (writer tr))[k]? = some (some w)) :
    L[k]? = some w.entry ∧ w.request.writes = true ∧ ∃ i, (i, .output (.proposed w)) ∈ tr := by
  rw [List.getElem?_map] at h
  obtain ⟨e, he, hw⟩ := Option.map_eq_some_iff.mp h
  obtain ⟨hmem, hentry, hwrites⟩ := writer_eq_some hw
  exact ⟨he.trans (congrArg some hentry.symm), hwrites, mem_threads.mp hmem⟩

theorem Serialized.ranked (h : Serialized conf tr c a) (hL : Indexed L) :
    Ranked (place tr) (readers tr) 0 (L.map (writer tr)) where
  read {k w} hw := by
    obtain ⟨i, answer, s, hmem, -, hreads, rfl⟩ := mem_readers.mp hw
    rw [place, hreads, if_neg (by simp), h.readAt_eq hmem]
  write {k w} hw := by
    obtain ⟨he, hwrites, -⟩ := getElem?_writers hw
    have hindex : w.index = k + 1 := hL k _ he
    rw [place, hwrites, if_pos rfl, hindex, Nat.zero_add, Nat.add_sub_cancel]

/-- A thread of the order has begun, its entry is committed, and it takes effect there or later. -/
theorem Serialized.of_mem_order (h : Serialized conf tr c a) (hL : CommittedLog a L)
    {w : Waiter} (hw : w ∈ order tr L) : (∃ i, (i, .output (.proposed w)) ∈ tr) ∧
      ¬ Replaced a w ∧ 2 * w.index ≤ place tr w + 1 := by
  have hindexed := hL.indexed h.attended.refined
  rcases mem_weave.mp hw with ⟨k, hk, hread⟩ | ⟨k, hwrite⟩
  · obtain ⟨i, answer, s, hmem, hres, hreads, -⟩ := mem_readers.mp hread
    have hg := h.grounded hmem hres
    have hplace := (h.ranked hindexed).read hread
    rw [place, hreads, if_neg (by simp), h.readAt_eq hmem] at hplace ⊢
    have hle := hg.le
    exact ⟨⟨i, h.came hmem⟩, hL.not_replaced hg.pos (hL.of_grounded hg).2.1, by omega⟩
  · obtain ⟨he, hwrites, hcame⟩ := getElem?_writers hwrite
    have hindex : w.index = k + 1 := hindexed k _ he
    refine ⟨hcame, hL.not_replaced (by omega) ?_, ?_⟩
    · rw [hindex, Nat.add_sub_cancel]
      exact he
    · rw [(h.ranked hindexed).write hwrite]
      omega

/-- A thread with a result has its place, and there the store gives this result. -/
theorem Serialized.result (h : Serialized conf tr c a) (hL : CommittedLog a L)
    (horig : ∀ e ∈ L, Origin tr e) {w : Waiter} {r : Result} (hr : .respond w r ∈ history tr) :
    ∃ k, ((L.map (writer tr))[k]? = some (some w) ∨
        k ≤ (L.map (writer tr)).length ∧ w ∈ readers tr k) ∧
      r = (keyValueStore.apply
        (keyValueStore.after keyValueStore.init ((L.map (writer tr)).take k).reduceOption) w).2 := by
  obtain ⟨i, answer, s, hmem, hresult⟩ := respond_mem_history hr
  have hres := isResult_of_result? hresult
  have hg := h.grounded hmem hres
  obtain ⟨hlen, he, hm⟩ := hL.of_grounded hg
  have hwritten : w.request.writes = true →
      (L.map (writer tr))[w.index - 1]? = some (some w) := fun hwrites => by
    rw [List.getElem?_map, he, Option.map_some, writer_entry (h.came hmem) hwrites]
  have hans := hg.answer_eq
  rcases hreq : w.request with ⟨key, value⟩ | key | key <;> rw [hreq] at hans hwritten <;>
    dsimp only at hans
  · rw [hans] at hresult
    refine ⟨w.index - 1, Or.inl (hwritten rfl), ?_⟩
    simp only [keyValueStore, hreq]
    exact (Option.some.inj hresult).symm
  · rw [hans] at hresult
    refine ⟨w.index - 1, Or.inl (hwritten rfl), ?_⟩
    simp only [keyValueStore, hreq]
    exact (Option.some.inj hresult).symm
  · refine ⟨s.metadata.lastApplied, Or.inr ⟨?_, mem_readers.mpr ⟨i, answer, s, hmem, hres, ?_, rfl⟩⟩,
      ?_⟩
    · rwa [List.length_map]
    · rw [hreq]
      rfl
    · rw [after_writers horig, ← hm]
      simp only [keyValueStore, hreq]
      rw [hans, KVStateMachine.has, KVStateMachine.get] at hresult
      rcases hlook : s.stateMachine.store.lookup key with _ | v <;> rw [hlook] at hresult
      · exact (Option.some.inj hresult).symm
      · exact (Option.some.inj hresult).symm

/-- A thread that is over when another one begins has the smaller place. -/
theorem Serialized.place_lt (h : Serialized conf tr c a) (hL : CommittedLog a L) {w w' : Waiter}
    (hp : Precedes (history tr) w w') (hw' : w' ∈ order tr L) : place tr w < place tr w' := by
  obtain ⟨k, i, j, answer, s, hk, hmem, hres⟩ := precedes_history hp
  have hg := h.grounded (List.mem_of_mem_take hmem) hres
  have hle := hg.le
  have hpos := hg.pos
  obtain ⟨-, hnot, hplace'⟩ := h.of_mem_order hL hw'
  have hlt := (h.ordered hk hmem hres).resolve_right hnot
  have hplace : place tr w ≤ 2 * s.metadata.lastApplied := by
    unfold place
    split
    · omega
    · rw [h.readAt_eq (List.mem_of_mem_take hmem)]
  omega

end Order

/-- **The cluster is linearizable.**  In an orderly run, what the clients of all nodes see is what
they would see of one store that takes their requests one after the other, each of them
between its beginning and its end. -/
theorem linearizable (h : Run (machine conf) Orderly tr c) :
    Linearizable keyValueStore (history tr) := by
  obtain ⟨a, ha⟩ := serialized h
  have href := ha.attended.refined
  obtain ⟨L, hL⟩ := href.exists_committedLog
  have horig := hL.origin href (originates (h.mono fun _ _ => Orderly.admissible))
  refine ⟨order tr L, .of_log (ha.ranked (hL.indexed href)) (fun k => ⟨List.nodup_dedup _, ?_⟩)
    (fun w hw => ?_) (fun hr => ha.result hL horig hr) fun hp hw' => ha.place_lt hL hp hw'⟩
  · intro w hw
    obtain ⟨i, answer, s, -, -, hreads, -⟩ := mem_readers.mp hw
    exact keyValueStore_looks hreads
  · obtain ⟨⟨i, hcame⟩, -⟩ := ha.of_mem_order hL hw
    exact invoke_mem_history hcame

/-- A value is stored with the first leader, and read from the second one. -/
theorem linearizable_put_get : ∃ tr c, Run (machine .three) Orderly tr c ∧
    history tr = [.invoke ⟨.put [107] [118], 2, 1⟩, .respond ⟨.put [107] [118], 2, 1⟩ .done,
      .invoke ⟨.get [107], 4, 2⟩, .respond ⟨.get [107], 4, 2⟩ (.read (some [118]))] ∧
    Linearizable keyValueStore (history tr) := by
  let put : LogEntry := ⟨1, 2, (Request.put [107] [118]).command⟩
  let get : LogEntry := ⟨2, 4, (Request.get [107]).command⟩
  obtain ⟨tr, c, hrun, h⟩ := Run.exists_of_exec orderly_of_serves (M := machine .three)
    (fun _ tr => decide (history tr =
      [.invoke ⟨.put [107] [118], 2, 1⟩, .respond ⟨.put [107] [118], 2, 1⟩ .done,
        .invoke ⟨.get [107], 4, 2⟩, .respond ⟨.get [107], 4, 2⟩ (.read (some [118]))]))
    (firstLeader ++ [.run 1 (.thread (.propose (.put [107] [118])))] ++
      exchange 1 2 ⟨1, 1, 1, 1, [put], 1⟩ true ++
      [.run 1 (.thread (.wake ⟨.put [107] [118], 2, 1⟩ false))] ++ campaign 2 3 2 2 1 ++
      [.run 2 (.thread (.propose (.get [107])))] ++ exchange 2 1 ⟨2, 2, 3, 2, [get], 1⟩ false ++
      exchange 2 1 ⟨2, 2, 2, 1, [⟨2, 3, .noop⟩, get], 1⟩ true ++
      [.run 2 (.thread (.wake ⟨.get [107], 4, 2⟩ false))])
    (by decide +kernel)
  exact ⟨tr, c, hrun, of_decide_eq_true h, linearizable hrun⟩

/-! ## What an answer is worth -/

/-- The entry of a thread that was answered in term `t` is there to stay. -/
structure Survives (conf : Config) (c : Cluster) (w : Waiter) (t : ℕ) : Prop where
  majority : ∃ V, conf.Majority V ∧ ∀ v ∈ V, ∀ l, c.IsLog v l → l[w.index - 1]? = some w.entry
  /-- whoever leads this term or a later one has it -/
  leaders : ∀ j ∈ conf.members, (c.hosts j).server.role = .leader → t ≤ c.term j →
    ∀ l, c.IsLog j l → l[w.index - 1]? = some w.entry
  /-- whoever has applied so many entries has applied it -/
  applied : ∀ j ∈ conf.members, w.index ≤ (c.hosts j).server.metadata.lastApplied →
    (c.hosts j).server.logEntries[w.index - 1]? = some w.entry

/-- What is committed in a term is in the log of every leader from then on. -/
theorem Refined.commit_isPrefix (h : Refined conf tr c a) {t n u j : ℕ} (hc : (t, n) ∈ a.commits)
    (hlead : a.leader u = some j) (htu : t ≤ u) : (a.leaderLog t).take n <+: a.leaderLog u := by
  rcases htu.eq_or_lt with rfl | hlt
  · exact List.take_prefix _ _
  · exact (Protocol.leaderComplete (majorities_meet conf) h.sim.logInv h.sim.safetyInv hc hlt
      hlead).trans (h.sim.logInv.electLog_isPrefix u)

/-- **Acknowledged requests survive.**  When a client of an orderly run has been given a result,
then at every later moment the entry of its request is on the disks of a majority, in the logs of
all leaders of the term of the answer and of later ones, and behind every state machine that
reaches so far. -/
theorem acknowledged_survives (h : Run (machine conf) Orderly tr c) {i : ℕ} {w : Waiter}
    {answer : Answer} {s : Server} (hmem : (i, .output (.answered w answer s)) ∈ tr)
    (hres : answer.isResult = true) : Survives conf c w s.metadata.currentTerm := by
  obtain ⟨a, ha⟩ := serialized h
  have href := ha.attended.refined
  have hg := ha.grounded hmem hres
  obtain ⟨t, n, hc, ht, hn, he, -⟩ := hg.committed
  have hpos := hg.pos
  have hle := hg.le
  have hentry : ∀ {l : List LogEntry}, (a.leaderLog t).take n <+: l →
      l[w.index - 1]? = some w.entry := by
    rintro l ⟨r, rfl⟩
    have hlt : w.index - 1 < n := by omega
    have hhere : ((a.leaderLog t).take n)[w.index - 1]? = some w.entry := by
      rw [List.getElem?_take_of_lt hlt, he]
    rw [List.getElem?_append_left (List.getElem?_eq_some_iff.mp hhere).1, hhere]
  refine ⟨?_, fun j hj hrole hterm l hl => ?_, fun j hj happ => ?_⟩
  · obtain ⟨V, hV, hheld⟩ := Protocol.committed_held (majorities_meet conf) href.sim.logInv
      href.sim.safetyInv hc
    refine ⟨V, hV, fun v hv l hl => ?_⟩
    rw [href.eq_of_isLog (hV.1 hv) hl]
    exact hentry (hheld v hv)
  · have hlead := (href.standing hj).leads hrole
    rw [term, (href.refines hj).term] at hterm
    rw [href.eq_of_isLog hj hl, href.sim.logInv.leader_log j hlead]
    exact hentry (href.commit_isPrefix hc hlead (ht.trans hterm))
  · -- two commits that both reach the place agree there
    rw [(href.refines hj).lastApplied] at happ
    have htake := href.take_eq_of_commit hc (hle.trans hn) happ
    rw [(href.refines hj).log, getElem?_eq_of_take_eq htake (by omega), he]

/-- A value is stored with the first leader, which crashes, and node 2 leads. -/
theorem acknowledged_survives_put : ∃ tr c s, Run (machine .three) Orderly tr c ∧
    (1, .output (.answered ⟨.put [107] [118], 2, 1⟩ (.ok 2 1) s)) ∈ tr ∧
    (c.hosts 1).boot = 1 ∧ (c.hosts 2).server.role = .leader ∧
    Survives .three c ⟨.put [107] [118], 2, 1⟩ s.metadata.currentTerm := by
  let put : LogEntry := ⟨1, 2, (Request.put [107] [118]).command⟩
  obtain ⟨tr, c, hrun, h⟩ := Run.exists_of_exec orderly_of_serves (M := machine .three)
    (fun c tr => decide ((c.hosts 1).boot = 1 ∧ (c.hosts 2).server.role = .leader ∧
      answerAt tr 28 = some (1, ⟨.put [107] [118], 2, 1⟩, .ok 2 1,
        [⟨1, 1, .noop⟩, ⟨1, 2, (Request.put [107] [118]).command⟩], 2)))
    (firstLeader ++ [.run 1 (.thread (.propose (.put [107] [118])))] ++
      exchange 1 2 ⟨1, 1, 1, 1, [put], 1⟩ true ++
      [.run 1 (.thread (.wake ⟨.put [107] [118], 2, 1⟩ false)), .crash 1 []] ++
      campaign 2 3 2 2 1)
    (by decide +kernel)
  obtain ⟨hboot, hrole, hans⟩ := of_decide_eq_true h
  obtain ⟨s, hk, -⟩ := of_answerAt hans
  have hmem := List.mem_of_getElem? hk
  exact ⟨tr, c, s, hrun, hmem, hboot, hrole, acknowledged_survives hrun hmem rfl⟩

end Cluster

end RaftConsensus
