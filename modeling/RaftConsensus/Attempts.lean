import RaftConsensus.Proposals
import RaftConsensus.RaftClient

/-!
# How often a call of `execute` takes effect

A server cannot tell an attempt from a new call: there is no number in a line, and nothing is
looked up before an entry is appended.  A client that tries again after its first attempt
was cut short may therefore see its write committed twice, with the writes of others in
between (`execute_commits_twice`).

What holds is said of attempts.  A line is served once, and as long as lengths fit, what is
committed carries its position.  So an attempt contributes one entry at most, and a call as many
as it has made attempts; it makes one only after all earlier ones have failed for it, and twenty
at most.

* `World.Does`: what an action does to a world.
* `Session.Paced`: the attempts of a process come one after the other.
* `execute_contributes`: what attempts and calls contribute to the committed log.
-/

namespace RaftConsensus

namespace World

variable {conf : Config} {servers : ℕ → List ℕ} {w w' : World} {tr evs : List Event}

/-! ## Traces -/

/-- The events of the cluster. -/
def nodeEvents (tr : List Event) : List (ℕ × Node.Event) :=
  tr.filterMap fun
    | .node e => some e
    | .client _ => none

/-- The events of the clients. -/
def clientEvents (tr : List Event) : List ClientEvent :=
  tr.filterMap fun
    | .node _ => none
    | .client e => some e

theorem nodeEvents_append (tr tr' : List Event) :
    nodeEvents (tr ++ tr') = nodeEvents tr ++ nodeEvents tr' := List.filterMap_append

theorem clientEvents_append (tr tr' : List Event) :
    clientEvents (tr ++ tr') = clientEvents tr ++ clientEvents tr' := List.filterMap_append

theorem nodeEvents_map_node (evs : List (ℕ × Node.Event)) : nodeEvents (evs.map .node) = evs := by
  rw [nodeEvents, List.filterMap_map]
  exact List.filterMap_some

theorem nodeEvents_map_client (es : List ClientEvent) : nodeEvents (es.map .client) = [] := by
  rw [nodeEvents, List.filterMap_map]
  exact List.filterMap_eq_nil_iff.mpr fun _ _ => rfl

theorem clientEvents_map_node (evs : List (ℕ × Node.Event)) :
    clientEvents (evs.map .node) = [] := by
  rw [clientEvents, List.filterMap_map]
  exact List.filterMap_eq_nil_iff.mpr fun _ _ => rfl

theorem clientEvents_map_client (es : List ClientEvent) : clientEvents (es.map .client) = es := by
  rw [clientEvents, List.filterMap_map]
  exact List.filterMap_some

theorem mem_nodeEvents {e : ℕ × Node.Event} : e ∈ nodeEvents tr ↔ .node e ∈ tr := by
  rw [nodeEvents, List.mem_filterMap]
  constructor
  · rintro ⟨x | x, hx, heq⟩
    · rwa [← Option.some.inj heq]
    · exact absurd heq (by simp)
  · exact fun h => ⟨_, h, rfl⟩

theorem mem_clientEvents {e : ClientEvent} : e ∈ clientEvents tr ↔ .client e ∈ tr := by
  rw [clientEvents, List.mem_filterMap]
  constructor
  · rintro ⟨x | x, hx, heq⟩
    · exact absurd heq (by simp)
    · rwa [← Option.some.inj heq]
  · exact fun h => ⟨_, h, rfl⟩

/-! ## Steps -/

/-- **What an action does**, with the events of the cluster and those of the clients. -/
inductive Does (conf : Config) (w : World) :
    Action → World → List (ℕ × Node.Event) → List ClientEvent → Prop
  | cluster (x : Cluster.Action) (c' : Cluster) (evs : List (ℕ × Node.Event))
      (hs : Cluster.step conf w.cluster x = some (c', evs)) :
      Does conf w (.cluster x) { w with cluster := c' } evs []
  | call (k : ℕ) (request : Request) (htask : (w.sessions k).task = .idle) :
      Does conf w (.call k request)
        (w.setSession k { w.sessions k with
          calls := (w.sessions k).calls + 1, task := .trying request 0 }) [] []
  | attempt (k : ℕ) (dials : List Bool) (sent : Bool) (request : Request) (attempt : ℕ)
      (client : RaftClient) (node boot : ℕ)
      (htask : (w.sessions k).task = .trying request attempt) :
      Does conf w (.send k dials sent)
        { w.setSession k { w.sessions k with
            client := client, boot := boot, task := .awaiting request attempt } with
          lines := w.lines ++
            if sent then [⟨⟨k, (w.sessions k).calls, attempt⟩, node, boot, request⟩] else [] }
        [] [.attempted ⟨k, (w.sessions k).calls, attempt⟩]
  | unreachable (k : ℕ) (dials : List Bool) (sent : Bool) (request : Request) (attempt : ℕ)
      (client : RaftClient) (htask : (w.sessions k).task = .trying request attempt) :
      Does conf w (.send k dials sent)
        (w.setSession k { w.sessions k with client := client, task := .idle })
        [] [.unreachable ⟨k, (w.sessions k).calls, attempt⟩]
  | fail (k : ℕ) (request : Request) (attempt : ℕ)
      (htask : (w.sessions k).task = .awaiting request attempt) :
      Does conf w (.fail k)
        (w.setSession k ((w.sessions k).retry (w.sessions k).client.afterFailure request attempt))
        [] [.failed ⟨k, (w.sessions k).calls, attempt⟩ none]
  | retry (r : Response) (k : ℕ) (request : Request) (attempt : ℕ)
      (htask : (w.sessions k).task = .awaiting request attempt)
      (htag : r.tag = ⟨k, (w.sessions k).calls, attempt⟩)
      (hresp : RaftClient.retryable r.text = true) :
      Does conf w (.receive r)
        { w.setSession k ((w.sessions k).retry ((w.sessions k).client.afterAnswer r.text)
            request attempt) with
          responses := w.responses.erase r }
        [] [.failed ⟨k, (w.sessions k).calls, attempt⟩ (some r.text)]
  | returned (r : Response) (k : ℕ) (request : Request) (attempt : ℕ)
      (htask : (w.sessions k).task = .awaiting request attempt)
      (htag : r.tag = ⟨k, (w.sessions k).calls, attempt⟩) :
      Does conf w (.receive r)
        { w.setSession k { w.sessions k with task := .idle } with
          responses := w.responses.erase r }
        [] [.returned ⟨k, (w.sessions k).calls, attempt⟩ r.text]
  | serve (l : Line) (crash : Option (CrashPoint × List CrashPoint)) (c' : Cluster)
      (evs : List (ℕ × Node.Event)) (threads : List Thread) (responses : List Response)
      (hl : l ∈ w.lines)
      (hs : Cluster.step conf w.cluster (Action.serving l crash) = some (c', evs)) :
      Does conf w (.serve l crash)
        { w with
          cluster := c', lines := w.lines.erase l, threads := threads, responses := responses }
        evs ((w.entryOf l).map (ClientEvent.appended l.tag))
  | answer (t : Thread) (timedOut : Bool) (c' : Cluster) (evs : List (ℕ × Node.Event))
      (threads : List Thread) (responses : List Response)
      (hs : Cluster.step conf w.cluster (.run t.node (.thread (.wake t.waiter timedOut))) =
        some (c', evs)) :
      Does conf w (.answer t timedOut)
        { w with cluster := c', threads := threads, responses := responses } evs []

theorem send_does {k : ℕ} {dials : List Bool} {sent : Bool} {es : List ClientEvent}
    (h : w.send k dials sent = some (w', es)) : Does conf w (.send k dials sent) w' [] es := by
  unfold send at h
  dsimp only at h
  split at h
  · next request attempt htask =>
    split at h
    · next client _ =>
      obtain ⟨rfl, rfl⟩ := Prod.mk.inj (Option.some.inj h)
      exact .unreachable k dials sent request attempt client htask
    · next client _ =>
      obtain ⟨node, -, heq⟩ := Option.map_eq_some_iff.mp h
      obtain ⟨rfl, rfl⟩ := Prod.mk.inj heq
      exact .attempt k dials sent request attempt client node _ htask
  · exact absurd h (by simp)

theorem receive_does {r : Response} {es : List ClientEvent} (h : w.receive r = some (w', es)) :
    Does conf w (.receive r) w' [] es := by
  unfold receive at h
  dsimp only at h
  split at h
  · next request attempt htask =>
    split at h
    · next hr =>
      obtain ⟨-, htag⟩ := hr
      split at h
      · next hresp =>
        obtain ⟨rfl, rfl⟩ := Prod.mk.inj (Option.some.inj h)
        have := @Does.retry conf w r _ request attempt htask htag hresp
        rw [← htag] at this
        exact this
      · obtain ⟨rfl, rfl⟩ := Prod.mk.inj (Option.some.inj h)
        have := @Does.returned conf w r _ request attempt htask htag
        rw [← htag] at this
        exact this
    · exact absurd h (by simp)
  · exact absurd h (by simp)

theorem step_does {a : Action} (h : step conf w a = some (w', evs)) :
    Does conf w a w' (nodeEvents evs) (clientEvents evs) := by
  rcases a with x | ⟨k, request⟩ | ⟨k, dials, sent⟩ | k | r | ⟨l, crash⟩ | ⟨t, timedOut⟩ <;>
    rw [step] at h
  · split at h
    · exact absurd h (by simp)
    · obtain ⟨⟨c', ns⟩, hs, heq⟩ := Option.map_eq_some_iff.mp h
      obtain ⟨rfl, rfl⟩ := Prod.mk.inj heq
      rw [nodeEvents_map_node, clientEvents_map_node]
      exact .cluster x c' ns hs
  · split at h
    · next htask =>
      obtain ⟨rfl, rfl⟩ := Prod.mk.inj (Option.some.inj h)
      exact .call k request htask
    · exact absurd h (by simp)
  · obtain ⟨⟨v, es⟩, hs, heq⟩ := Option.map_eq_some_iff.mp h
    obtain ⟨rfl, rfl⟩ := Prod.mk.inj heq
    rw [nodeEvents_map_client, clientEvents_map_client]
    exact send_does hs
  · split at h
    · next request attempt htask =>
      obtain ⟨rfl, rfl⟩ := Prod.mk.inj (Option.some.inj h)
      exact .fail k request attempt htask
    · exact absurd h (by simp)
  · obtain ⟨⟨v, es⟩, hs, heq⟩ := Option.map_eq_some_iff.mp h
    obtain ⟨rfl, rfl⟩ := Prod.mk.inj heq
    rw [nodeEvents_map_client, clientEvents_map_client]
    exact receive_does hs
  · unfold serve at h
    split at h
    · next hl =>
      obtain ⟨⟨c', ns⟩, hs, heq⟩ := Option.map_eq_some_iff.mp h
      obtain ⟨rfl, rfl⟩ := Prod.mk.inj heq
      rw [nodeEvents_append, clientEvents_append, nodeEvents_map_node, clientEvents_map_node,
        nodeEvents_map_client, clientEvents_map_client, List.append_nil, List.nil_append]
      exact .serve l crash c' ns _ _ hl.1 hs
    · exact absurd h (by simp)
  · split at h
    · obtain ⟨⟨c', ns⟩, hs, heq⟩ := Option.map_eq_some_iff.mp h
      obtain ⟨rfl, rfl⟩ := Prod.mk.inj heq
      rw [nodeEvents_map_node, clientEvents_map_node]
      exact .answer t timedOut c' ns _ _ hs
    · exact absurd h (by simp)

end World

/-! ## The attempts of a process -/

/-- The attempts that process `k` made in its call `n`. -/
def attempts (es : List ClientEvent) (k n : ℕ) : List ℕ :=
  es.filterMap fun
    | .attempted tag => if tag.client = k ∧ tag.call = n then some tag.attempt else none
    | _ => none

theorem attempts_append (es es' : List ClientEvent) (k n : ℕ) :
    attempts (es ++ es') k n = attempts es k n ++ attempts es' k n := List.filterMap_append

/-- An attempt failed for its client: its connection broke, nobody answered in time, or it was
answered that it should try again. -/
def Failed (es : List ClientEvent) (tag : Tag) : Prop :=
  ∃ why, .failed tag why ∈ es ∧ ∀ resp ∈ why, RaftClient.retryable resp = true

theorem Failed.mono {es : List ClientEvent} {tag : Tag} (h : Failed es tag)
    (es' : List ClientEvent) : Failed (es ++ es') tag := by
  obtain ⟨why, hmem, hresp⟩ := h
  exact ⟨why, List.mem_append_left _ hmem, hresp⟩

/-- **The attempts of process `k` come one after the other**, in each call from number zero on, each
after the failure of the one before. -/
structure Session.Paced (es : List ClientEvent) (k : ℕ) (s : Session) : Prop where
  counted : ∀ n, ∃ m ≤ maxTries, attempts es k n = List.range m
  trying : ∀ {request a}, s.task = .trying request a →
    a < maxTries ∧ attempts es k s.calls = List.range a
  awaiting : ∀ {request a}, s.task = .awaiting request a →
    a < maxTries ∧ attempts es k s.calls = List.range (a + 1)
  fresh : ∀ {n}, s.calls < n → attempts es k n = []
  failed : ∀ {n a}, a + 1 ∈ attempts es k n → Failed es ⟨k, n, a⟩
  goesOn : ∀ {request a}, s.task = .trying request (a + 1) → Failed es ⟨k, s.calls, a⟩
  returned : ∀ {n a resp}, .returned ⟨k, n, a⟩ resp ∈ es →
    attempts es k n = List.range (a + 1) ∧ (n < s.calls ∨ n = s.calls ∧ s.task = .idle)

namespace Session.Paced

variable {es es' : List ClientEvent} {k : ℕ} {s : Session}

/-- Events that are no attempts and no ends of calls of the process. -/
theorem quiet (h : s.Paced es k) (hattempts : ∀ n, attempts es' k n = [])
    (hreturned : ∀ n a resp, .returned ⟨k, n, a⟩ resp ∉ es') : s.Paced (es ++ es') k := by
  have heq : ∀ n, attempts (es ++ es') k n = attempts es k n := by
    intro n
    rw [attempts_append, hattempts, List.append_nil]
  refine ⟨fun n => ?_, fun ht => ?_, fun ht => ?_, fun hn => ?_, fun hmem => ?_, fun ht => ?_,
    fun {n a resp} hret => ?_⟩
  · rw [heq]
    exact h.counted n
  · rw [heq]
    exact h.trying ht
  · rw [heq]
    exact h.awaiting ht
  · rw [heq]
    exact h.fresh hn
  · rw [heq] at hmem
    exact (h.failed hmem).mono es'
  · exact (h.goesOn ht).mono es'
  · rw [heq]
    rcases List.mem_append.mp hret with hret | hret
    · exact h.returned hret
    · exact absurd hret (hreturned n a resp)

/-- A new call. -/
theorem call (h : s.Paced es k) (request : Request) {s' : Session}
    (hcalls : s'.calls = s.calls + 1) (htask : s'.task = .trying request 0) : s'.Paced es k where
  counted := h.counted
  trying ht := by
    obtain ⟨-, rfl⟩ := Task.trying.inj (htask.symm.trans ht)
    exact ⟨by decide, by rw [hcalls, h.fresh (Nat.lt_succ_self _), List.range_zero]⟩
  awaiting ht := absurd (htask.symm.trans ht) (by simp)
  fresh hn := h.fresh (by omega)
  failed := h.failed
  goesOn ht := absurd (Task.trying.inj (htask.symm.trans ht)).2 (by simp)
  returned hret := by
    obtain ⟨heq, hn⟩ := h.returned hret
    exact ⟨heq, Or.inl (by omega)⟩

/-- The next attempt. -/
theorem attempt (h : s.Paced es k) {request : Request} {a : ℕ}
    (htask : s.task = .trying request a) {s' : Session} (hcalls : s'.calls = s.calls)
    (htask' : s'.task = .awaiting request a) :
    s'.Paced (es ++ [.attempted ⟨k, s.calls, a⟩]) k := by
  obtain ⟨hlt, hrange⟩ := h.trying htask
  have hself : attempts (es ++ [.attempted ⟨k, s.calls, a⟩]) k s.calls = List.range (a + 1) := by
    rw [attempts_append, hrange, List.range_succ]
    simp [attempts]
  have hother : ∀ {n}, n ≠ s.calls →
      attempts (es ++ [.attempted ⟨k, s.calls, a⟩]) k n = attempts es k n := by
    intro n hn
    rw [attempts_append]
    simp [attempts, Ne.symm hn]
  refine ⟨fun n => ?_, fun ht => absurd (htask'.symm.trans ht) (by simp), fun ht => ?_, fun hn => ?_,
    fun {n b} hmem => ?_, fun ht => absurd (htask'.symm.trans ht) (by simp),
    fun {n b resp} hret => ?_⟩
  · by_cases hn : n = s.calls
    · rw [hn, hself]
      exact ⟨a + 1, hlt, rfl⟩
    · rw [hother hn]
      exact h.counted n
  · obtain ⟨-, rfl⟩ := Task.awaiting.inj (htask'.symm.trans ht)
    exact ⟨hlt, hcalls ▸ hself⟩
  · rw [hother (by omega)]
    exact h.fresh (hcalls ▸ hn)
  · by_cases hn : n = s.calls
    · subst hn
      rw [hself, List.mem_range] at hmem
      rcases Nat.lt_or_ge (b + 1) a with hb | hb
      · exact (h.failed (by rw [hrange, List.mem_range]; exact hb)).mono _
      · -- the attempt before this one
        obtain rfl : a = b + 1 := by omega
        exact (h.goesOn htask).mono _
    · rw [hother hn] at hmem
      exact (h.failed hmem).mono _
  · rcases List.mem_append.mp hret with hret | hret
    · obtain ⟨heq, hlt' | ⟨-, hidle⟩⟩ := h.returned hret
      · exact ⟨(hother hlt'.ne).trans heq, Or.inl (hcalls ▸ hlt')⟩
      · exact absurd (htask.symm.trans hidle) (by simp)
    · exact absurd (List.mem_singleton.mp hret) (by simp)

/-- A call that ends without an answer. -/
theorem giveUp (h : s.Paced es k) (hbusy : s.task ≠ .idle) {s' : Session}
    (hcalls : s'.calls = s.calls) (htask : s'.task = .idle) : s'.Paced es k where
  counted := h.counted
  trying ht := absurd (htask.symm.trans ht) (by simp)
  awaiting ht := absurd (htask.symm.trans ht) (by simp)
  fresh hn := h.fresh (hcalls ▸ hn)
  failed := h.failed
  goesOn ht := absurd (htask.symm.trans ht) (by simp)
  returned hret := by
    obtain ⟨heq, hn | ⟨-, hidle⟩⟩ := h.returned hret
    · exact ⟨heq, Or.inl (hcalls ▸ hn)⟩
    · exact absurd hidle hbusy

/-- An attempt fails, and the loop goes on if it is not at its end. -/
theorem retry (h : s.Paced es k) {request : Request} {a : ℕ}
    (htask : s.task = .awaiting request a) (client : RaftClient) {why : Option Bytes}
    (hwhy : ∀ resp ∈ why, RaftClient.retryable resp = true) :
    (s.retry client request a).Paced (es ++ [.failed ⟨k, s.calls, a⟩ why]) k := by
  have hbusy : s.task ≠ .idle := by simp [htask]
  obtain ⟨-, hrange⟩ := h.awaiting htask
  have hq : s.Paced (es ++ [.failed ⟨k, s.calls, a⟩ why]) k := h.quiet (fun _ => rfl) (by simp)
  by_cases hmax : a + 1 < maxTries
  · have htask' : (s.retry client request a).task = .trying request (a + 1) := if_pos hmax
    exact
      { counted := hq.counted
        trying := fun ht => by
          obtain ⟨-, rfl⟩ := Task.trying.inj (htask'.symm.trans ht)
          exact ⟨hmax, (hq.awaiting htask).2⟩
        awaiting := fun ht => absurd (htask'.symm.trans ht) (by simp)
        fresh := hq.fresh
        failed := hq.failed
        goesOn := fun ht => by
          obtain ⟨-, hb⟩ := Task.trying.inj (htask'.symm.trans ht)
          obtain rfl := Nat.succ.inj hb
          exact ⟨why, List.mem_append_right _ List.mem_cons_self, hwhy⟩
        returned := fun hret => by
          obtain ⟨heq, hn | ⟨-, hidle⟩⟩ := hq.returned hret
          · exact ⟨heq, Or.inl hn⟩
          · exact absurd hidle hbusy }
  · exact hq.giveUp hbusy rfl (if_neg hmax)

/-- A call ends with an answer. -/
theorem finish (h : s.Paced es k) {request : Request} {a : ℕ}
    (htask : s.task = .awaiting request a) (resp : Bytes) {s' : Session}
    (hcalls : s'.calls = s.calls) (htask' : s'.task = .idle) :
    s'.Paced (es ++ [.returned ⟨k, s.calls, a⟩ resp]) k := by
  obtain ⟨-, hrange⟩ := h.awaiting htask
  have hidle := h.giveUp (by simp [htask]) hcalls htask'
  have heq : ∀ n, attempts (es ++ [.returned ⟨k, s.calls, a⟩ resp]) k n = attempts es k n := by
    intro n
    rw [attempts_append]
    exact List.append_nil _
  refine ⟨fun n => ?_, fun ht => ?_, fun ht => ?_, fun hn => ?_, fun hmem => ?_, fun ht => ?_,
    fun {n b resp'} hret => ?_⟩
  · rw [heq]
    exact h.counted n
  · exact absurd (htask'.symm.trans ht) (by simp)
  · exact absurd (htask'.symm.trans ht) (by simp)
  · rw [heq]
    exact hidle.fresh hn
  · rw [heq] at hmem
    exact (h.failed hmem).mono _
  · exact absurd (htask'.symm.trans ht) (by simp)
  · rw [heq]
    rcases List.mem_append.mp hret with hret | hret
    · exact hidle.returned hret
    · obtain ⟨htag, -⟩ := ClientEvent.returned.inj (List.mem_singleton.mp hret)
      obtain ⟨-, rfl, rfl⟩ := Tag.mk.inj htag
      exact ⟨hrange, Or.inr ⟨hcalls.symm, htask'⟩⟩

end Session.Paced

/-! ## Lines and entries -/

/-- Whose event it is. -/
def ClientEvent.tag : ClientEvent → Tag
  | attempted tag | appended tag _ | failed tag _ | returned tag _ | unreachable tag => tag

/-- Events of others. -/
theorem Session.Paced.others {es es' : List ClientEvent} {k : ℕ} {s : Session} (h : s.Paced es k)
    (hes : ∀ e ∈ es', e.tag.client ≠ k) : s.Paced (es ++ es') k := by
  refine h.quiet (fun n => List.filterMap_eq_nil_iff.mpr fun e he => ?_)
    fun n a resp he => hes _ he rfl
  cases e with
  | attempted tag => exact if_neg fun heq => hes _ he heq.1
  | _ => rfl

/-- The entries that an attempt has brought about. -/
def entries (es : List ClientEvent) (tag : Tag) : List Waiter :=
  es.filterMap fun
    | .appended t v => if t = tag then some v else none
    | _ => none

theorem entries_append (es es' : List ClientEvent) (tag : Tag) :
    entries (es ++ es') tag = entries es tag ++ entries es' tag := List.filterMap_append

theorem mem_entries {es : List ClientEvent} {tag : Tag} {v : Waiter} :
    v ∈ entries es tag ↔ .appended tag v ∈ es := by
  rw [entries, List.mem_filterMap]
  constructor
  · rintro ⟨_ | ⟨t, u⟩ | _ | _ | _, hmem, heq⟩
    case appended =>
      obtain ⟨rfl, rfl⟩ : t = tag ∧ u = v := by simpa using heq
      exact hmem
    all_goals exact absurd heq (by simp)
  · exact fun h => ⟨_, h, if_pos rfl⟩

theorem entries_map_appended (t tag : Tag) (vs : List Waiter) :
    entries (vs.map (ClientEvent.appended t)) tag = if t = tag then vs else [] := by
  rw [entries, List.filterMap_map]
  by_cases h : t = tag
  · rw [if_pos h]
    exact (List.filterMap_congr fun v _ => if_pos h).trans List.filterMap_some
  · rw [if_neg h]
    exact List.filterMap_eq_nil_iff.mpr fun v _ => if_neg h

theorem attempts_map_appended (t : Tag) (vs : List Waiter) (k n : ℕ) :
    attempts (vs.map (ClientEvent.appended t)) k n = [] := by
  rw [attempts, List.filterMap_map]
  exact List.filterMap_eq_nil_iff.mpr fun _ _ => rfl

namespace World

variable {conf : Config} {servers : ℕ → List ℕ} {w w' : World} {tr evs : List Event}
  {es es' : List ClientEvent}

/-- **An attempt is used up once**: its line is on its way, or has brought about one entry at
most. -/
structure Booked (es : List ClientEvent) (w : World) : Prop where
  paced : ∀ k, (w.sessions k).Paced es k
  budget : ∀ tag, w.lines.countP (fun l => l.tag = tag) + (entries es tag).length ≤
    (attempts es tag.client tag.call).count tag.attempt

theorem paced_update (h : ∀ j, (w.sessions j).Paced es j) {k : ℕ} {s : Session}
    (hs : s.Paced (es ++ es') k) (hes : ∀ e ∈ es', e.tag.client = k) (j : ℕ) :
    (Function.update w.sessions k s j).Paced (es ++ es') j := by
  by_cases hj : j = k
  · subst hj
    rw [Function.update_self]
    exact hs
  · rw [Function.update_of_ne hj]
    exact (h j).others fun e he heq => hj (heq.symm.trans (hes e he))

/-- No line, no attempt and no entry. -/
theorem Booked.still (h : w.Booked es) (hlines : w'.lines = w.lines)
    (hpaced : ∀ k, (w'.sessions k).Paced (es ++ es') k) (hattempts : ∀ k n, attempts es' k n = [])
    (hentries : ∀ tag, entries es' tag = []) : w'.Booked (es ++ es') where
  paced := hpaced
  budget tag := by
    rw [hlines, attempts_append, entries_append, hattempts, hentries, List.append_nil,
      List.append_nil]
    exact h.budget tag

theorem length_entryOf_le (w : World) (l : Line) : (w.entryOf l).length ≤ 1 := by
  rw [entryOf]
  rcases (w.cluster.hosts l.node).server.propose l.request with _ | _ <;> simp

theorem count_attempted (t tag : Tag) :
    (attempts [.attempted t] tag.client tag.call).count tag.attempt = if t = tag then 1 else 0 := by
  rcases t with ⟨k, n, a⟩
  rcases tag with ⟨k', n', a'⟩
  by_cases hcall : k = k' ∧ n = n'
  · obtain ⟨rfl, rfl⟩ := hcall
    by_cases ha : a = a' <;> simp [attempts, ha]
  · have hne : (⟨k, n, a⟩ : Tag) ≠ ⟨k', n', a'⟩ := fun heq =>
      hcall ⟨(Tag.mk.inj heq).1, (Tag.mk.inj heq).2.1⟩
    rw [if_neg hne]
    simp [attempts, hcall]

/-- The line of an attempt, if it gets out. -/
theorem countP_sent (t tag : Tag) (sent : Bool) (node boot : ℕ) (request : Request) :
    (if sent then [(⟨t, node, boot, request⟩ : Line)] else []).countP (fun l => l.tag = tag) ≤
      if t = tag then 1 else 0 := by
  rcases sent with _ | _
  · exact Nat.zero_le _
  · by_cases ht : t = tag <;> simp [ht]

theorem countP_erase_line {l : Line} {lines : List Line} (hl : l ∈ lines) (tag : Tag) :
    (lines.erase l).countP (fun l => l.tag = tag) + (if l.tag = tag then 1 else 0) =
      lines.countP fun l => l.tag = tag := by
  rw [(List.perm_cons_erase hl).countP_eq, List.countP_cons]
  simp

theorem Booked.step (h : w.Booked es) {a : Action} {ns : List (ℕ × Node.Event)}
    (hd : Does conf w a w' ns es') : w'.Booked (es ++ es') := by
  cases hd with
  | cluster x c' evs =>
    exact h.still rfl (fun k => (h.paced k).others (by simp)) (fun _ _ => rfl) fun _ => rfl
  | call k request =>
    refine h.still rfl (paced_update h.paced ?_ (by simp)) (fun _ _ => rfl) fun _ => rfl
    rw [List.append_nil]
    exact (h.paced k).call request rfl rfl
  | attempt k dials sent request attempt client node boot htask =>
    refine ⟨paced_update h.paced ((h.paced k).attempt htask rfl rfl) (by simp [ClientEvent.tag]),
      fun tag => ?_⟩
    have hold := h.budget tag
    have hline := countP_sent ⟨k, (w.sessions k).calls, attempt⟩ tag sent node boot request
    rw [attempts_append, entries_append, List.count_append, count_attempted]
    dsimp only
    rw [List.countP_append]
    have hentries : entries [.attempted ⟨k, (w.sessions k).calls, attempt⟩] tag = [] := rfl
    rw [hentries, List.append_nil]
    omega
  | unreachable k dials sent request attempt client htask =>
    refine h.still rfl (paced_update h.paced ?_ (by simp [ClientEvent.tag])) (fun _ _ => rfl)
      fun _ => rfl
    exact ((h.paced k).quiet (fun _ => rfl) (by simp)).giveUp (by simp [htask]) rfl rfl
  | fail k request attempt htask =>
    exact h.still rfl (paced_update h.paced ((h.paced k).retry htask _ (by simp))
      (by simp [ClientEvent.tag])) (fun _ _ => rfl) fun _ => rfl
  | retry r k request attempt htask htag hresp =>
    exact h.still rfl (paced_update h.paced ((h.paced k).retry htask _ (by simpa using hresp))
      (by simp [ClientEvent.tag])) (fun _ _ => rfl) fun _ => rfl
  | returned r k request attempt htask htag =>
    exact h.still rfl (paced_update h.paced ((h.paced k).finish htask _ rfl rfl)
      (by simp [ClientEvent.tag])) (fun _ _ => rfl) fun _ => rfl
  | serve l crash c' evs threads responses hl hs =>
    refine ⟨fun k => (h.paced k).quiet (fun n => attempts_map_appended ..) (by simp), fun tag => ?_⟩
    have hold := h.budget tag
    have herase := countP_erase_line hl tag
    have hone := w.length_entryOf_le l
    rw [attempts_append, attempts_map_appended, List.append_nil, entries_append,
      entries_map_appended, List.length_append]
    dsimp only
    split at herase
    · next htag =>
      rw [if_pos htag]
      omega
    · next htag =>
      rw [if_neg htag, List.length_nil]
      omega
  | answer t timedOut c' evs threads responses =>
    exact h.still rfl (fun k => (h.paced k).others (by simp)) (fun _ _ => rfl) fun _ => rfl

theorem booked (h : Run (machine conf servers) (fun _ _ => True) tr w) :
    w.Booked (clientEvents tr) := by
  refine h.invariant (I := fun tr w => w.Booked (clientEvents tr)) ?_ ?_
  · refine ⟨fun k => ⟨fun n => ⟨0, Nat.zero_le _, rfl⟩, fun ht => absurd ht (by simp [machine]),
      fun ht => absurd ht (by simp [machine]), fun _ => rfl,
      fun hmem => absurd hmem (by simp [attempts, clientEvents]),
      fun ht => absurd ht (by simp [machine]),
      fun hret => absurd hret (by simp [clientEvents])⟩, fun tag => ?_⟩
    simp [machine, clientEvents, entries, attempts]
  · intro tr w a w' evs _ hw _ hs
    rw [clientEvents_append]
    exact hw.step (step_does hs)

/-! ## Runs of the cluster -/

/-- What an action does within the cluster is admissible. -/
def Admissible (w : World) (a : Action) : Prop := ∀ x ∈ a.within, w.cluster.Admissible x

/-- `Admissible`, decided as `Cluster.admits` does it. -/
def admits (w : World) (a : Action) : Bool := a.within.all w.cluster.admits

theorem admissible_of_admits (w : World) (a : Action) (h : w.admits a = true) : w.Admissible a := by
  intro x hx
  rw [admits, hx] at h
  exact Cluster.admissible_of_admits _ _ h

/-- Without its clients, a step of a world is a step of its cluster, or none. -/
theorem Does.cluster_step {a : Action} {ns : List (ℕ × Node.Event)}
    (hd : Does conf w a w' ns es) :
    (∃ x, a.within = some x ∧ Cluster.step conf w.cluster x = some (w'.cluster, ns)) ∨
      a.within = none ∧ w'.cluster = w.cluster ∧ ns = [] := by
  cases hd with
  | cluster x c' evs hs => exact Or.inl ⟨x, rfl, hs⟩
  | serve l crash c' evs threads responses hl hs => exact Or.inl ⟨_, rfl, hs⟩
  | answer t timedOut c' evs threads responses hs => exact Or.inl ⟨_, rfl, hs⟩
  | _ => exact Or.inr ⟨rfl, rfl, rfl⟩

theorem run_cluster (h : Run (machine conf servers) Admissible tr w) :
    Run (Cluster.machine conf) Cluster.Admissible (nodeEvents tr) w.cluster := by
  refine h.invariant (I := fun tr w =>
    Run (Cluster.machine conf) Cluster.Admissible (nodeEvents tr) w.cluster) .start ?_
  intro tr w a w' evs _ hw hadm hs
  rw [nodeEvents_append]
  rcases (step_does hs).cluster_step with ⟨x, hx, hs'⟩ | ⟨-, hcluster, hns⟩
  · exact hw.next (hadm x hx) hs'
  · rw [hcluster, hns, List.append_nil]
    exact hw

/-! ## Where the entries are -/

/-- **Entries of different attempts are different.** -/
structure Numbered (conf : Config) (tr : List Event) (w : World) (a : Abstract) : Prop where
  refined : Cluster.Refined conf (nodeEvents tr) w.cluster a
  held : ∀ {tag v}, .appended tag v ∈ clientEvents tr → v.index ≤ (a.leaderLog v.term).length
  distinct : ∀ {tag tag' v v'}, .appended tag v ∈ clientEvents tr →
    .appended tag' v' ∈ clientEvents tr → v.index = v'.index → v.term = v'.term → tag = tag'

theorem handle_propose {n m : Node} {os : List Output} {request : Request} {v : Waiter}
    {s : Server} (h : n.handle (.propose request) = some (m, os))
    (hp : n.server.propose request = some (v, s)) : m.server = s := by
  cases Node.handle_section h with
  | refused _ hnone => exact absurd (hnone.symm.trans hp) (by simp)
  | proposed _ w s' hp' => exact (Prod.mk.inj (Option.some.inj (hp'.symm.trans hp))).2
  | atOnce _ w s' hp' => exact (Prod.mk.inj (Option.some.inj (hp'.symm.trans hp))).2

/-- A new entry is the last one of its leader's log. -/
theorem Numbered.new_entry {a a' : Abstract} (h : Numbered conf tr w a) {l : Line} {c' : Cluster}
    {ns : List (ℕ × Node.Event)}
    (hadm : w.cluster.Admissible (.run l.node (.thread (.propose l.request))))
    (hs : Cluster.step conf w.cluster (.run l.node (.thread (.propose l.request))) = some (c', ns))
    (hg : Protocol.Grows a a') (h' : Cluster.Refined conf (nodeEvents tr ++ ns) c' a') {v : Waiter}
    (hv : v ∈ w.entryOf l) :
    (a.leaderLog v.term).length < v.index ∧ v.index ≤ (a'.leaderLog v.term).length := by
  obtain ⟨⟨u, s⟩, hp, rfl⟩ := Option.map_eq_some_iff.mp (Option.mem_toList.mp hv)
  cases Cluster.step_moves hs with
  | run i g x net m os hi hfetch hm =>
    obtain rfl : x = .propose l.request := by
      rcases Cluster.fetch_eq_some hfetch with ⟨hx, -, -⟩ | ⟨p, hx, -⟩
      · exact (Trigger.thread.inj hx).symm
      · exact absurd hx (by simp)
    have hserver := handle_propose hm hp
    have hindex := h.refined.index_of_propose hi hadm.2.1 hp
    obtain ⟨hu, hrole, hterm, hlog⟩ := Server.propose_eq_some hp
    have huterm : u.term = a.term l.node := by
      rw [hu]
      exact (h.refined.refines hi).term
    have hlead := (h.refined.standing hi).leads hrole
    have hold := h.refined.sim.logInv.leader_log _ hlead
    -- the node has led its term before, and so it does now
    have hrefines := h'.refines hi
    dsimp only at hrefines
    rw [Function.update_self] at hrefines
    have hterm' : a'.term l.node = a.term l.node := by
      rw [← hrefines.term, ← (h.refined.refines hi).term, ← hterm, ← hserver]
      rfl
    have hnew := h'.sim.logInv.leader_log l.node (by
      rw [hterm']
      exact (hg.leader hlead).1)
    have hlog' : a'.log l.node = a.log l.node ++ [u.entry] := by
      rw [← hrefines.log, ← (h.refined.refines hi).log, ← hlog, ← hserver]
      rfl
    rw [huterm, ← hold, ← hterm', ← hnew, hlog', hindex, (h.refined.refines hi).log]
    simp

/-- Only a server that handles a line makes an entry of it. -/
theorem Does.mem_entryOf {a : Action} {ns : List (ℕ × Node.Event)} (hd : Does conf w a w' ns es)
    {tag : Tag} {v : Waiter} (hv : .appended tag v ∈ es) :
    ∃ l crash, a = .serve l crash ∧ l.tag = tag ∧ v ∈ w.entryOf l := by
  cases hd with
  | serve l crash c' evs threads responses hl hs =>
    obtain ⟨u, hu, heq⟩ := List.mem_map.mp hv
    obtain ⟨rfl, rfl⟩ := ClientEvent.appended.inj heq
    exact ⟨l, crash, rfl, rfl, hu⟩
  | _ => exact absurd hv (by simp)

theorem Numbered.step {a : Abstract} (h : Numbered conf tr w a) {x : Action}
    (hadm : w.Admissible x) (hs : step conf w x = some (w', evs)) :
    ∃ a', Numbered conf (tr ++ evs) w' a' := by
  have hd := step_does hs
  obtain ⟨a', hg, h', hnew⟩ : ∃ a', Protocol.Grows a a' ∧
      Cluster.Refined conf (nodeEvents tr ++ nodeEvents evs) w'.cluster a' ∧
      ∀ {tag v}, .appended tag v ∈ clientEvents evs →
        (a.leaderLog v.term).length < v.index ∧ v.index ≤ (a'.leaderLog v.term).length := by
    rcases hd.cluster_step with ⟨y, hy, hs'⟩ | ⟨hnone, hcluster, hns⟩
    · obtain ⟨a', hg, -, h'⟩ := h.refined.step (hadm y hy) hs'
      refine ⟨a', hg, h', fun hv => ?_⟩
      obtain ⟨l, _ | ⟨p, retries⟩, rfl, -, hu⟩ := hd.mem_entryOf hv <;>
        obtain rfl := Option.some.inj hy
      · exact h.new_entry (hadm _ hy) hs' hg h' hu
      · exact absurd (hadm _ hy) id
    · refine ⟨a, .refl a, ?_, fun hv => ?_⟩
      · rw [hns, hcluster, List.append_nil]
        exact h.refined
      · obtain ⟨l, crash, rfl, -⟩ := hd.mem_entryOf hv
        exact absurd hnone (by simp [Action.within])
  rw [← nodeEvents_append] at h'
  refine ⟨a', h', fun hv => ?_, fun {tag tag' v v'} hv hv' hindex hterm => ?_⟩
  · rw [clientEvents_append] at hv
    rcases List.mem_append.mp hv with hv | hv
    · exact (h.held hv).trans (hg.leaderLog _).length_le
    · exact (hnew hv).2
  · rw [clientEvents_append] at hv hv'
    rcases List.mem_append.mp hv with hv | hv <;> rcases List.mem_append.mp hv' with hv' | hv'
    · exact h.distinct hv hv' hindex hterm
    · have hlt := (hnew hv').1
      have hle := h.held hv
      rw [hterm] at hle
      omega
    · have hlt := (hnew hv).1
      have hle := h.held hv'
      rw [← hterm] at hle
      omega
    · obtain ⟨l, crash, rfl, rfl, -⟩ := hd.mem_entryOf hv
      obtain ⟨l', crash', heq, rfl, -⟩ := hd.mem_entryOf hv'
      obtain ⟨rfl, -⟩ := Action.serve.inj heq
      rfl

theorem numbered (h : Run (machine conf servers) Admissible tr w) :
    ∃ a, Numbered conf tr w a := by
  refine h.invariant (I := fun tr w => ∃ a, Numbered conf tr w a) ?_ ?_
  · exact ⟨_, Cluster.refined_initial conf, fun hv => absurd hv (by simp [clientEvents]),
      fun hv => absurd hv (by simp [clientEvents])⟩
  · rintro tr w x w' evs - ⟨a, ha⟩ hadm hs
    exact ha.step hadm hs

/-! ## What takes effect -/

/-- A leader has committed the entry at a position of the log. -/
def Committed (tr : List Event) (p : ℕ) (e : LogEntry) : Prop :=
  ∃ i t n log, .node (i, .effect (.advanceCommit t n log)) ∈ tr ∧ p < n ∧ log[p]? = some e

/-- **An attempt contributes what is committed at a position**: its line made a leader append this
entry. -/
def Contributes (tr : List Event) (tag : Tag) (p : ℕ) : Prop :=
  ∃ v, .client (.appended tag v) ∈ tr ∧ Committed tr p v.entry

/-- How the attempts of a call follow each other: there are twenty at most, from number zero on, and
each is made only after all earlier ones have failed for the client. -/
structure AttemptsInTurn (tr : List Event) : Prop where
  tries : ∀ k n, ∃ m ≤ maxTries, attempts (clientEvents tr) k n = List.range m
  retried : ∀ {k n a b}, b ∈ attempts (clientEvents tr) k n → a < b →
    Failed (clientEvents tr) ⟨k, n, a⟩
  returned : ∀ {k n a resp}, .client (.returned ⟨k, n, a⟩ resp) ∈ tr →
    attempts (clientEvents tr) k n = List.range (a + 1)

/-- What attempts and calls contribute to the committed log. -/
structure OncePerAttempt (tr : List Event) : Prop where
  attempt : ∀ {tag p q}, Contributes tr tag p → Contributes tr tag q → p = q
  call : ∀ k n (S : Finset ℕ), (∀ p ∈ S, ∃ a, Contributes tr ⟨k, n, a⟩ p) →
    S.card ≤ (attempts (clientEvents tr) k n).length
  alone : ∀ {tag tag' p}, Contributes tr tag p → Contributes tr tag' p → tag = tag'

/-- What has brought about an entry was attempted, and has brought about nothing else. -/
theorem Booked.appended (h : w.Booked es) {tag : Tag} {v : Waiter} (hv : .appended tag v ∈ es) :
    tag.attempt ∈ attempts es tag.client tag.call ∧
      ∀ {u}, .appended tag u ∈ es → u = v := by
  have hmem := mem_entries.mpr hv
  have hbudget := h.budget tag
  have hpos := List.length_pos_of_mem hmem
  obtain ⟨m, -, hrange⟩ := (h.paced tag.client).counted tag.call
  have hone : (attempts es tag.client tag.call).count tag.attempt ≤ 1 := by
    rw [hrange]
    exact List.nodup_iff_count_le_one.mp List.nodup_range _
  refine ⟨List.count_pos_iff.mp (by omega), fun {u} hu => ?_⟩
  obtain ⟨x, hx⟩ := List.length_eq_one_iff.mp (show (entries es tag).length = 1 by omega)
  have hu' := mem_entries.mpr hu
  rw [hx, List.mem_singleton] at hmem hu'
  rw [hmem, hu']

theorem Booked.attemptsInTurn (h : w.Booked (clientEvents tr)) : AttemptsInTurn tr where
  tries k n := (h.paced k).counted n
  retried {k n a b} hb hab := by
    obtain ⟨m, -, hrange⟩ := (h.paced k).counted n
    rw [hrange, List.mem_range] at hb
    exact (h.paced k).failed (by rw [hrange, List.mem_range]; omega)
  returned hret := ((h.paced _).returned (mem_clientEvents.mpr hret)).1

namespace Numbered

variable {a : Abstract} (h : Numbered conf tr w a)
  (hrun : Run (machine conf servers) Admissible tr w)

include h hrun

/-- What is committed is in the log of a leader, and what is committed at one position is one
entry. -/
theorem committed_unique {p : ℕ} {e e' : LogEntry} (hc : Committed tr p e)
    (hc' : Committed tr p e') : e = e' := by
  obtain ⟨i, t, n, log, hc, hn, he⟩ := hc
  obtain ⟨i', t', n', log', hc', hn', he'⟩ := hc'
  have hcluster := run_cluster hrun
  obtain ⟨hmem, htake⟩ := h.refined.explained_mem hcluster (mem_nodeEvents.mpr hc)
  obtain ⟨hmem', htake'⟩ := h.refined.explained_mem hcluster (mem_nodeEvents.mpr hc')
  rw [← List.getElem?_take_of_lt hn, htake, List.getElem?_take_of_lt hn] at he
  rw [← List.getElem?_take_of_lt hn', htake', List.getElem?_take_of_lt hn'] at he'
  have hsame := Protocol.getElem?_commit_eq (Cluster.majorities_meet conf) h.refined.sim.logInv
    h.refined.sim.safetyInv hmem hmem' hn hn'
  rw [he, he'] at hsame
  exact Option.some.inj hsame

/-- **What is committed carries its position.** -/
theorem index_of_committed {p : ℕ} {e : LogEntry} (hc : Committed tr p e) : e.index = p + 1 := by
  obtain ⟨i, t, n, log, hc, hn, he⟩ := hc
  obtain ⟨-, htake⟩ := h.refined.explained_mem (run_cluster hrun) (mem_nodeEvents.mpr hc)
  rw [← List.getElem?_take_of_lt hn, htake, List.getElem?_take_of_lt hn] at he
  exact h.refined.sim.indexed_log (h.refined.sim.logInv.leader_matched _) p e he

theorem eq_of_contributes (hb : w.Booked (clientEvents tr)) {tag : Tag} {p q : ℕ}
    (hp : Contributes tr tag p) (hq : Contributes tr tag q) : p = q := by
  obtain ⟨v, hv, hp⟩ := hp
  obtain ⟨u, hu, hq⟩ := hq
  obtain rfl := (hb.appended (mem_clientEvents.mpr hv)).2 (mem_clientEvents.mpr hu)
  have hindex := h.index_of_committed hrun hp
  rw [h.index_of_committed hrun hq] at hindex
  omega

theorem tag_unique {tag tag' : Tag} {p : ℕ} (ht : Contributes tr tag p)
    (ht' : Contributes tr tag' p) : tag = tag' := by
  obtain ⟨v, hv, hc⟩ := ht
  obtain ⟨v', hv', hc'⟩ := ht'
  have hsame := h.committed_unique hrun hc hc'
  have hterm : v.term = v'.term := congrArg LogEntry.term hsame
  have hindex : v.index = v'.index := congrArg LogEntry.index hsame
  exact h.distinct (mem_clientEvents.mpr hv) (mem_clientEvents.mpr hv') hindex hterm

theorem oncePerAttempt (hb : w.Booked (clientEvents tr)) : OncePerAttempt tr where
  attempt := h.eq_of_contributes hrun hb
  call k n S hS := by
    choose! f hf using hS
    -- no two positions come from one attempt
    have hinj : Set.InjOn f S := fun p hp q hq heq =>
      h.eq_of_contributes hrun hb (hf p hp) (heq ▸ hf q hq)
    have hmaps : Set.MapsTo f S (attempts (clientEvents tr) k n).toFinset := by
      intro p hp
      obtain ⟨v, hv, -⟩ := hf p hp
      exact List.mem_toFinset.mpr (hb.appended (mem_clientEvents.mpr hv)).1
    exact (Finset.card_le_card_of_injOn f hmaps hinj).trans (List.toFinset_card_le _)
  alone := h.tag_unique hrun

end Numbered

end World

end RaftConsensus
