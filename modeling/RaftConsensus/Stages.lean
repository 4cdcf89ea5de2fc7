import RaftConsensus.Sections

/-!
# Sections that are cut short

A section carries out its storage calls one after the other, and a crash may come between any two
of them.  What is on disk then is what a section would have left that ended there, and the protocol
has a state for it: a vote that was written and not sent is a vote, entries that were written and
not acknowledged are accepted, and a leader that has not written its first entry is elected.

* `Sim.cut`: the relation survives if the last effects are not carried out, as long as no commit is
  among them.
* `Stage`: the protocol has a state for the server as it is, and so has the disk.
* `Severable`: there is a stage after each of the effects.  Every helper of the source keeps this,
  and so does every handler.
* `Cluster.Refined.severable`: **every section can be cut off after any of its effects.**
-/

namespace RaftConsensus

open Protocol (Reachable Confined Grows LogInv SafetyInv UpToDate lastTerm)

/-! ## Fewer effects -/

section Cut

variable {conf : Config} {past : ℕ → List Effect} {files : ℕ → Files} {net : List Packet}
  {servers : ℕ → Server} {a : Abstract} {i : ℕ} {s : Server}

/-- **The last effects are not carried out.** -/
theorem Sim.cut (h : Sim conf past files net (Function.update servers i s) a)
    (hi : i ∈ conf.members) {front back : List Effect} (heff : s.effects = front ++ back)
    (hback : ∀ t n log, .advanceCommit t n log ∉ back)
    (hdisk : diskCommit (perform front (files i)) ≤ s.metadata.commitIndex) :
    Sim conf past files net (Function.update servers i { s with effects := front }) a := by
  have hself := h.accounted_self hi
  refine { h with accounted := fun j hj => ?_, marked := fun {t n} hn => ?_ }
  · by_cases hji : j = i
    · subst hji
      rw [Function.update_self]
      refine ⟨{ hself.refines with }, { hself.standing with }, fun e he => hself.explained e ?_,
        hdisk⟩
      rw [heff, ← List.append_assoc]
      exact List.mem_append_left _ he
    · have hother := h.accounted j hj
      rwa [Function.update_of_ne hji] at hother ⊢
  · obtain ⟨j, hj, log, hlog⟩ := h.marked hn
    refine ⟨j, hj, log, ?_⟩
    by_cases hji : j = i
    · subst hji
      rw [Function.update_self] at hlog ⊢
      rw [heff, ← List.append_assoc] at hlog
      exact (List.mem_append.mp hlog).resolve_right (hback t n log)
    · rwa [Function.update_of_ne hji] at hlog ⊢

/-- A mark is no storage call. -/
theorem Sim.unmark {e : Effect}
    (h : Sim conf past files net (Function.update servers i (s.emit e)) a) (hi : i ∈ conf.members)
    (hcalls : e.calls = []) (hnot : ∀ t n log, e ≠ .advanceCommit t n log) :
    Sim conf past files net (Function.update servers i s) a := by
  refine h.cut hi (show (s.emit e).effects = s.effects ++ [e] from rfl)
    (fun t n log hmem => hnot t n log (List.mem_singleton.mp hmem).symm) ?_
  have hdisk : diskCommit (perform (s.effects ++ [e]) (files i)) ≤ s.metadata.commitIndex :=
    (h.accounted_self hi).disk
  rwa [perform_append, perform_cons, perform_nil, hcalls] at hdisk

/-- **Between the election and the first entry** the node may be taken for a follower. -/
theorem Sim.elected (h : Sim conf past files net (Function.update servers i s) a)
    (hi : i ∈ conf.members) (hrole : s.role = .candidate) {V : Finset ℕ} (hV : conf.Majority V)
    (hvotes : ∀ v ∈ V, a.voted v (a.term i) = some i) (hlen : (a.log i).length < 2 ^ 64) :
    Simulated conf past files net servers i a { s.takeLead with role := .follower } := by
  have hself := h.accounted_self hi
  have href := hself.refines
  have hnone := h.leader_eq_none hV hvotes (hself.standing.unelected hrole)
  have hup : ∀ v ∈ V, a.voted v (a.term i) = some i ∧
      UpToDate (a.log i) (a.voteLog v (a.term i)) :=
    fun v hv => ⟨hvotes v hv, hself.standing.upToDate hrole v (hvotes v hv)⟩
  have hg := Confined.elect h.logInv hnone hup
  refine h.move hi (.step h.reachable (.elect a i V hV hnone hup)) hg ?_
    (List.subset_append_left _ _) (fun _ _ _ _ hv => Or.inl hv) (fun t => ?_)
    (fun hv => Or.inl hv) fun hn => Or.inl hn
  · refine hself.extend h.safetyInv hg.grows { href with } (.of_follower rfl)
      [.becomeLeader s.metadata.currentTerm s.logEntries] rfl (fun e he => ?_) le_rfl (by simp)
    rw [List.mem_singleton.mp he, href.term, href.log]
    simp [Effect.Explained, Protocol.State.elect]
  · by_cases ht : t = a.term i
    · subst ht
      simp only [Protocol.State.elect, Function.update_self]
      exact ⟨h.indexed_log (h.logInv.log_matched i), hlen⟩
    · simp only [Protocol.State.elect, ne_eq, ht, not_false_eq_true, Function.update_of_ne]
      exact ⟨h.indexed t, h.short t⟩

end Cut

/-! ## Stages -/

section Stages

variable (conf : Config) (past : ℕ → List Effect) (files : ℕ → Files) (net : List Packet)
  (servers : ℕ → Server) (i : ℕ) (a : Abstract) (p : ℕ × ℕ) (l : List LogEntry)

/-- From `a`, with the ballot `p` and the log `l` on disk, node `i` gets to where the server `s`
refines it, and the effects so far make ballot and log on disk those of `s`. -/
structure Stage (s : Server) : Prop where
  simulated : Simulated conf past files net servers i a s
  tracked : s.Tracked i (conf.peers i) p
  logged : s.Logged LogEntry.WellFormed l

/-- There is a stage after any number of the effects. -/
structure Severable (s : Server) : Prop extends Stage conf past files net servers i a p l s where
  cut : ∀ k, ∃ t, Stage conf past files net servers i a p l t ∧ t.effects = s.effects.take k

end Stages

section Rules

variable {conf : Config} {past : ℕ → List Effect} {files : ℕ → Files} {net : List Packet}
  {servers : ℕ → Server} {i : ℕ} {a : Abstract} {p : ℕ × ℕ} {l : List LogEntry} {s s' : Server}

theorem Stage.severable (h : Stage conf past files net servers i a p l s) (heff : s.effects = []) :
    Severable conf past files net servers i a p l s :=
  ⟨h, fun _ => ⟨s, h, by rw [heff, List.take_nil]⟩⟩

theorem Severable.congr (h : Severable conf past files net servers i a p l s)
    (h' : Stage conf past files net servers i a p l s') (heff : s'.effects = s.effects) :
    Severable conf past files net servers i a p l s' := ⟨h', by rw [heff]; exact h.cut⟩

/-- More effects, with a stage after each of them. -/
theorem Severable.append (h : Severable conf past files net servers i a p l s)
    (h' : Stage conf past files net servers i a p l s') {es : List Effect}
    (heff : s'.effects = s.effects ++ es)
    (hnew : ∀ k, ∃ t, Stage conf past files net servers i a p l t ∧
      t.effects = s.effects ++ es.take (k + 1)) :
    Severable conf past files net servers i a p l s' := by
  refine ⟨h', fun k => ?_⟩
  rw [heff]
  rcases Nat.lt_or_ge s.effects.length k with hlt | hge
  · obtain ⟨t, ht, hteff⟩ := hnew (k - s.effects.length - 1)
    refine ⟨t, ht, ?_⟩
    rw [hteff, List.take_append, List.take_of_length_le hlt.le, Nat.sub_add_cancel (by omega)]
  · rw [List.take_append_of_le_length hge]
    exact h.cut k

theorem Severable.snoc (h : Severable conf past files net servers i a p l s)
    (h' : Stage conf past files net servers i a p l s') {e : Effect}
    (heff : s'.effects = s.effects ++ [e]) : Severable conf past files net servers i a p l s' :=
  h.append h' heff fun k => ⟨s', h', by rw [heff, List.take_of_length_le (by simp)]⟩

/-- A change that neither the protocol nor the disk sees. -/
theorem Severable.unseen (h : Severable conf past files net servers i a p l s)
    (hi : i ∈ conf.members) (href : ∀ {b}, s.Refines conf b i → s'.Refines conf b i)
    (hst : ∀ {b}, s.Standing b net i → s'.Standing b net i) (hid : s'.nodeId = s.nodeId)
    (hps : s'.peers = s.peers) (hrun : s'.running = s.running)
    (hmeta : s'.metadata = s.metadata) (hlog : s'.logEntries = s.logEntries)
    (heff : s'.effects = s.effects) : Severable conf past files net servers i a p l s' := by
  refine h.congr ⟨h.simulated.trans fun hb => ?_, ?_, ?_⟩ heff
  · exact (hb.unseen hi (href (hb.refines hi)) (hst (hb.standing hi)) heff).simulated
  · exact h.tracked.congr s' hid hps hrun heff (by rw [hmeta]) (by rw [hmeta])
  · exact h.logged.congr s' (hmeta ▸ h.logged.term_lt) hlog heff

/-- The server, taken for a follower. -/
def Server.asFollower (s : Server) : Server := { s with role := .follower }

theorem Severable.asFollower (h : Severable conf past files net servers i a p l s)
    (hi : i ∈ conf.members) : Severable conf past files net servers i a p l s.asFollower :=
  h.unseen hi (fun hb => { hb with }) (fun _ => .of_follower rfl) rfl rfl rfl rfl rfl rfl

/-- A mark is the same stage as before it. -/
theorem Stage.unmark {e : Effect} (h : Stage conf past files net servers i a p l (s.emit e))
    (hi : i ∈ conf.members) (hcalls : e.calls = []) (hnot : ∀ t n log, e ≠ .advanceCommit t n log) :
    Stage conf past files net servers i a p l s := by
  obtain ⟨b, hg, hb⟩ := h.simulated
  have hballot : ∀ r, e.ballot r = r := by
    rcases e with _ | _ | _ | _ | _ | _ | _ | _ | _ | _ | _ | _
    case updateMetaData => exact absurd hcalls (by simp [Effect.calls, updateMetaData])
    case createMetaData => exact absurd hcalls (by simp [Effect.calls, createMetaData])
    all_goals exact fun _ => rfl
  have hlog : ∀ r, e.log r = r := by
    rcases e with _ | _ | _ | _ | _ | _ | _ | _ | _ | _ | _ | _
    case writelog => exact absurd hcalls (by simp [Effect.calls, writelog])
    case rewriteLog => exact absurd hcalls (by simp [Effect.calls, rewriteLog])
    all_goals exact fun _ => rfl
  exact
    { simulated := ⟨b, hg, hb.unmark hi hcalls hnot⟩
      tracked := { h.tracked with reads := h.tracked.reads.of_concat hballot }
      logged := { h.logged with reads := h.logged.reads.of_concat hlog } }

/-- A storage call, with a mark behind it. -/
theorem Severable.marked (h : Severable conf past files net servers i a p l s)
    (hi : i ∈ conf.members) {e e' : Effect}
    (h' : Stage conf past files net servers i a p l (s'.emit e'))
    (heff : s'.effects = s.effects ++ [e]) (hcalls : e'.calls = [])
    (hnot : ∀ t n log, e' ≠ .advanceCommit t n log) :
    Severable conf past files net servers i a p l (s'.emit e') :=
  (h.snoc (h'.unmark hi hcalls hnot) heff).snoc h' rfl

theorem Severable.adoptTerm (h : Severable conf past files net servers i a p l s)
    (hi : i ∈ conf.members) {t : ℕ} (hlt : s.metadata.currentTerm < t) (ht : t < 2 ^ 64)
    (leaderId : ℕ) : Severable conf past files net servers i a p l (s.adoptTerm t leaderId) := by
  refine h.snoc ⟨h.simulated.trans fun hb => hb.adoptTerm hi hlt leaderId, ?_, ?_⟩ rfl
  · exact (h.tracked.stepDown hlt ht).congr _ rfl rfl rfl rfl rfl rfl
  · exact (h.logged.stepDown ht).congr _ ht rfl rfl

theorem Severable.grantVote (h : Severable conf past files net servers i a p l s)
    (hi : i ∈ conf.members) {c : ℕ}
    (h' : Stage conf past files net servers i a p l (s.grantVote c)) :
    Severable conf past files net servers i a p l (s.grantVote c) :=
  h.marked hi h' rfl rfl (by simp)

theorem Severable.becomeCandidate (h : Severable conf past files net servers i a p l s)
    (hi : i ∈ conf.members)
    (h' : Stage conf past files net servers i a p l s.becomeCandidate) :
    Severable conf past files net servers i a p l s.becomeCandidate :=
  h.marked hi h' rfl rfl (by simp)

theorem Severable.storeEntries (h : Severable conf past files net servers i a p l s)
    {entries : List LogEntry} (hs : s.storeEntries entries = some s')
    (h' : Stage conf past files net servers i a p l s') :
    Severable conf past files net servers i a p l s' := by
  cases Server.storeEntries_way hs with
  | same => exact h.congr h' rfl
  | rewritten => exact h.snoc h' rfl

/-- What `applyCommitted` does has no advance of the commit index among it. -/
theorem Server.applyCommitted_effects (s : Server) :
    ∃ es, s.applyCommitted.effects = s.effects ++ es ∧ ∀ t n log, .advanceCommit t n log ∉ es := by
  rw [applyCommitted_eq]
  split
  · exact ⟨[], (List.append_nil _).symm, by simp⟩
  · refine ⟨appliedMarks s.metadata.lastApplied s.unapplied ++
      [.updateMetaData (s.applied s.unapplied).metadata], by simp [applied, persistMetaData, emit],
      fun t n log hmem => ?_⟩
    rcases List.mem_append.mp hmem with hmem | hmem
    · obtain ⟨_, _, heq⟩ := mem_appliedMarks hmem
      exact absurd heq (by simp)
    · exact absurd (List.mem_singleton.mp hmem) (by simp)

/-- The effects of a commit begin with its mark. -/
theorem Server.raiseCommit_marked (s : Server) (n : ℕ) (mark : Effect)
    (hmark : ∀ m, mark.IsCommit m) (happ : mark.isApplied = false) :
    ∃ es, Commits s (s.raiseCommit n mark) (mark :: es) ∧
      ∀ t k log, .advanceCommit t k log ∉ es := by
  obtain ⟨es, hc, -⟩ := s.raiseCommit_commits n mark hmark happ
  obtain ⟨es', heff, hnone⟩ := applyCommitted_effects
    ({ s with metadata := { s.metadata with commitIndex := n } }.emit mark)
  have heff' : (s.raiseCommit n mark).effects = s.effects ++ mark :: es' := by
    rw [raiseCommit, heff, emit, List.append_assoc]
    rfl
  rw [List.append_cancel_left (hc.effects.symm.trans heff')] at hc
  exact ⟨es', hc, hnone⟩

/-- A commit whose last effects are not carried out. -/
theorem Server.Commits.cut {front back : List Effect} (h : Commits s s' (front ++ back)) :
    Commits s { s' with effects := s.effects ++ front } front :=
  ⟨congrArg (fun u : Server => { u with effects := s.effects ++ front }) h.eq,
    fun e he => h.isCommit e (List.mem_append_left _ he)⟩

/-- **A commit can be cut off**: once it is marked, the rest only applies and writes it. -/
theorem Severable.raiseCommit (h : Severable conf past files net servers i a p l s.asFollower)
    (hi : i ∈ conf.members) {n : ℕ} {mark : Effect} (hmark : ∀ m, mark.IsCommit m)
    (happ : mark.isApplied = false) (hle : s.metadata.commitIndex ≤ n)
    (h' : Stage conf past files net servers i a p l (s.raiseCommit n mark)) :
    Severable conf past files net servers i a p l (s.raiseCommit n mark) := by
  obtain ⟨es, hc, hnone⟩ := s.raiseCommit_marked n mark hmark happ
  obtain ⟨b, -, hb⟩ := h.simulated
  obtain ⟨b', hg', hb'⟩ := h'.simulated
  have hcommit : (s.raiseCommit n mark).metadata.commitIndex = n :=
    Server.applyCommitted_commitIndex _
  have htracked : s.Tracked i (conf.peers i) p := h.tracked.congr s rfl rfl rfl rfl rfl rfl
  have hlogged : s.Logged LogEntry.WellFormed l := h.logged.congr s h.logged.term_lt rfl rfl
  have hdisk : diskCommit (perform s.effects (files i)) ≤ s.metadata.commitIndex :=
    (hb.accounted_self hi).disk
  refine h.append h' hc.effects fun k => ?_
  have hes : mark :: es = mark :: es.take k ++ es.drop k := by
    rw [List.cons_append, List.take_append_drop]
  have hcut := Server.Commits.cut (hes ▸ hc)
  have heff : (s.raiseCommit n mark).effects = (s.effects ++ mark :: es.take k) ++ es.drop k := by
    rw [hc.effects, List.append_assoc, ← hes]
  refine ⟨{ s.raiseCommit n mark with effects := s.effects ++ mark :: es.take k },
    ⟨⟨b', hg', hb'.cut hi heff (fun t m log hmem => hnone t m log (List.mem_of_mem_drop hmem)) ?_⟩,
      htracked.commits hcut, hlogged.commits hcut⟩, rfl⟩
  rw [perform_append]
  refine diskCommit_perform_le (hdisk.trans ?_) fun m hm => ?_
  · rwa [hcommit]
  · rw [hcut.isCommit _ hm]

theorem Severable.advanceCommit (h : Severable conf past files net servers i a p l s.asFollower)
    (hi : i ∈ conf.members) (h' : Stage conf past files net servers i a p l s.advanceCommit) :
    Severable conf past files net servers i a p l s.advanceCommit := by
  rcases s.advanceCommit_cases with heq | ⟨n, -, hscan, heq⟩ <;> rw [heq] at h' ⊢
  · exact h.congr h' rfl
  · exact h.raiseCommit hi (fun _ => trivial) rfl (Server.commitScan_eq_some hscan).1.le h'

theorem Server.followCommit_eq_or (s : Server) (args : AppendEntriesArgs) :
    s.followCommit args = s ∨ ∃ n, s.metadata.commitIndex < n ∧
      s.followCommit args = s.raiseCommit n (.followCommit n) := by
  unfold followCommit
  dsimp only
  split
  · split
    · next hlt => exact Or.inr ⟨_, hlt, rfl⟩
    · exact Or.inl rfl
  · exact Or.inl rfl

theorem Severable.followCommit (h : Severable conf past files net servers i a p l s.asFollower)
    (hi : i ∈ conf.members) {args : AppendEntriesArgs}
    (h' : Stage conf past files net servers i a p l (s.followCommit args)) :
    Severable conf past files net servers i a p l (s.followCommit args) := by
  rcases s.followCommit_eq_or args with heq | ⟨n, hlt, heq⟩ <;> rw [heq] at h' ⊢
  · exact h.congr h' rfl
  · exact h.raiseCommit hi (fun _ => trivial) rfl hlt.le h'

/-- **`becomeLeader` can be cut off**, also before its first entry is written. -/
theorem Severable.becomeLeader (h : Severable conf past files net servers i a p l s)
    (hi : i ∈ conf.members) (hrole : s.role = .candidate)
    (hwin : ∀ {b}, Confined i a b → s.Refines conf b i →
      ∃ V, conf.Majority V ∧ ∀ v ∈ V, b.voted v (b.term i) = some i)
    (hlen : s.logEntries.length + 1 < 2 ^ 64)
    (h' : Stage conf past files net servers i a p l s.becomeLeader) :
    Severable conf past files net servers i a p l s.becomeLeader := by
  obtain ⟨b, hg, hb⟩ := h.simulated
  obtain ⟨V, hV, hvotes⟩ := hwin hg (hb.refines hi)
  rw [(hb.refines hi).log] at hlen
  have htracked := h.tracked.emit (e := .becomeLeader s.metadata.currentTerm s.logEntries) rfl
    fun _ => rfl
  have hlogged := h.logged.emit (.becomeLeader s.metadata.currentTerm s.logEntries)
    (fun _ => trivial) fun _ => rfl
  have hlead : s.takeLead.Tracked i (conf.peers i) p := htracked.congr _ rfl rfl rfl rfl rfl rfl
  have hlead' : s.takeLead.Logged LogEntry.WellFormed l :=
    hlogged.congr _ h.logged.term_lt rfl rfl
  have helected : Stage conf past files net servers i a p l s.takeLead.asFollower := by
    obtain ⟨b', hg', hb'⟩ := hb.elected hi hrole hV hvotes (Nat.lt_of_succ_lt hlen)
    exact ⟨⟨b', hg.trans hg', hb'⟩, hlead.congr _ rfl rfl rfl rfl rfl rfl,
      hlead'.congr _ h.logged.term_lt rfl rfl⟩
  have hfirst : Stage conf past files net servers i a p l
      (s.takeLead.appendEntry s.takeLead.noop).resetPeers := by
    obtain ⟨b', hg', hb'⟩ := hb.takeLead hi hrole hV hvotes hlen
    exact ⟨⟨b', hg.trans hg', hb'⟩,
      (hlead.appendEntry s.takeLead.noop).congr _ rfl rfl rfl rfl rfl rfl,
      (hlead'.appendEntry (hlead'.nextEntry admits_noop)).congr _ h.logged.term_lt rfl rfl⟩
  have helect : Severable conf past files net servers i a p l s.takeLead.asFollower :=
    h.snoc helected rfl
  have hwrite : Severable conf past files net servers i a p l
      (s.takeLead.appendEntry s.takeLead.noop).resetPeers := helect.snoc hfirst rfl
  exact (hwrite.asFollower hi).advanceCommit hi h'

/-! ## Handlers -/

theorem Severable.handleRequestVote (h : Severable conf past files net servers i a p l s)
    (hi : i ∈ conf.members) {args : RequestVoteArgs} (ht : args.term < 2 ^ 64)
    (h' : Stage conf past files net servers i a p l (s.handleRequestVote args).2) :
    Severable conf past files net servers i a p l (s.handleRequestVote args).2 := by
  have hmeet : Severable conf past files net servers i a p l (s.meetTerm args.term) := by
    unfold Server.meetTerm
    split
    · next hlt => exact h.adoptTerm hi hlt ht 0
    · exact h
  generalize hr : s.handleRequestVote args = r at h' ⊢
  cases Server.handleRequestVote_way hr with
  | old => exact h
  | denied => exact hmeet
  | granted => exact hmeet.grantVote hi h'

theorem Severable.handleAppendEntries (h : Severable conf past files net servers i a p l s)
    (hi : i ∈ conf.members) (hsafe : SafetyInv conf.Majority a) {args : AppendEntriesArgs}
    (ht : args.term < 2 ^ 64) (hwf : ∀ e ∈ args.entries, e.WellFormed) {L : List LogEntry}
    (hL : args.Payload a L) {r : AppendEntriesReply × Server}
    (hr : s.handleAppendEntries args = some r)
    (h' : Stage conf past files net servers i a p l r.2) :
    Severable conf past files net servers i a p l r.2 := by
  have hrec : Severable conf past files net servers i a p l (s.recognizeLeader args) := by
    rw [Server.recognizeLeader_eq]
    split
    · next hlt => exact h.adoptTerm hi hlt ht args.leaderId
    · exact (h.asFollower hi).unseen hi (fun hb => { hb with }) (fun _ => .of_follower rfl)
        rfl rfl rfl rfl rfl rfl
  cases Server.handleAppendEntries_way hr with
  | old => exact h
  | mismatch => exact hrec
  | stored hlt hprev s' hs' =>
    obtain ⟨b, hg, hb⟩ := hrec.simulated
    have hterm : b.term i = args.term :=
      (hb.refines hi).term.symm.trans (Server.recognizeLeader_term hlt)
    obtain ⟨d, hgd, hd, -⟩ := hb.storeEntries hi rfl (hL.mono hg.grows hsafe) hterm.symm hprev hs'
    have hstored : Severable conf past files net servers i a p l s' :=
      hrec.storeEntries hs' ⟨⟨d, hg.trans hgd, hd⟩, hrec.tracked.storeEntries hs',
        hrec.logged.storeEntries hwf hs'⟩
    exact (hstored.asFollower hi).followCommit hi h'

theorem Severable.handleRequestVoteReply (h : Severable conf past files net servers i a p l s)
    (hi : i ∈ conf.members) {t : ℕ} {reply : RequestVoteReply} (ht : reply.term < 2 ^ 64)
    (hwin : s.role = .candidate → s.metadata.currentTerm = t → reply.voteGranted = true →
      s.majority ≤ (s.votesReceived + 1) % 2 ^ 64 → ∀ {b}, Confined i a b →
        b.term i = s.metadata.currentTerm →
          ∃ V, conf.Majority V ∧ ∀ v ∈ V, b.voted v (b.term i) = some i)
    (hlen : s.logEntries.length + 1 < 2 ^ 64)
    (h' : Stage conf past files net servers i a p l (s.handleRequestVoteReply t reply)) :
    Severable conf past files net servers i a p l (s.handleRequestVoteReply t reply) := by
  have hcount : Severable conf past files net servers i a p l s.countVote :=
    h.unseen hi (fun hb => { hb with }) (fun hb => { hb with }) rfl rfl rfl rfl rfl rfl
  generalize hs' : s.handleRequestVoteReply t reply = s' at h' ⊢
  cases Server.handleRequestVoteReply_way hs' with
  | stepsDown hlt => exact h.adoptTerm hi hlt ht 0
  | ignored => exact h
  | won hterm hrole hsame hgranted hmaj =>
    exact hcount.becomeLeader hi hrole
      (fun hg hb => hwin hrole hsame hgranted hmaj hg hb.term.symm) hlen h'
  | counted => exact hcount

theorem Severable.handleAppendEntriesReply
    (h : Severable conf past files net servers i a p l s) (hi : i ∈ conf.members) {peer : ℕ}
    {args : AppendEntriesArgs} {reply : AppendEntriesReply} (ht : reply.term < 2 ^ 64)
    (h' : Stage conf past files net servers i a p l (s.handleAppendEntriesReply peer args reply)) :
    Severable conf past files net servers i a p l (s.handleAppendEntriesReply peer args reply) := by
  have hup : Severable conf past files net servers i a p l (s.reached peer) :=
    h.unseen hi (fun hb => { hb with }) (fun hb => { hb with }) rfl rfl rfl rfl rfl rfl
  generalize hs' : s.handleAppendEntriesReply peer args reply = s' at h' ⊢
  cases Server.handleAppendEntriesReply_way hs' with
  | stepsDown hlt => exact hup.adoptTerm hi hlt ht 0
  | ignored => exact hup
  | credited =>
    rw [Server.creditPeer_eq] at h' ⊢
    refine Severable.advanceCommit ?_ hi h'
    exact (hup.asFollower hi).unseen hi (fun hb => { hb with }) (fun _ => .of_follower rfl)
      rfl rfl rfl rfl rfl rfl
  | backed => exact hup.congr h' rfl

theorem Severable.electionTimeout (h : Severable conf past files net servers i a p l s)
    (hi : i ∈ conf.members) (hwrap : s.metadata.currentTerm + 1 < 2 ^ 64)
    (hnet : ∀ b v args, .requestVote i b v args ∈ net → args.term ≤ s.metadata.currentTerm)
    (hlen : s.logEntries.length + 1 < 2 ^ 64) {r : Bool × Server}
    (hr : s.electionTimeout = some r) (h' : Stage conf past files net servers i a p l r.2) :
    Severable conf past files net servers i a p l r.2 := by
  have hstand : Severable conf past files net servers i a p l s.becomeCandidate := by
    refine h.becomeCandidate hi ⟨h.simulated.trans fun hb => ?_,
      h.tracked.becomeCandidate (conf.ne_zero i hi) (conf.lt i hi) hwrap, h.logged.becomeCandidate⟩
    refine hb.becomeCandidate hi hwrap ?_
    rw [← (hb.refines hi).term]
    exact hnet
  cases Server.electionTimeout_way hr with
  | alone hrole hmaj =>
    refine hstand.becomeLeader hi rfl (fun {b} _ hb => ?_) hlen h'
    have hvote : b.voted i (b.term i) = some i := by
      rw [hb.vote]
      show (if s.nodeId = 0 then none else some s.nodeId) = some i
      rw [h.tracked.nodeId, if_neg (conf.ne_zero i hi)]
    -- alone, the node is a majority
    have hone : conf.Majority {i} := by
      refine ⟨Finset.singleton_subset_iff.mpr hi, ?_⟩
      have hps : s.becomeCandidate.peers = conf.peers i := h.tracked.peers
      rw [Server.majority, hps, conf.length_peers hi] at hmaj
      rw [Finset.card_singleton]
      exact hmaj
    refine ⟨{i}, hone, fun v hv => ?_⟩
    rw [Finset.mem_singleton.mp hv]
    exact hvote
  | campaigns => exact hstand

theorem Severable.propose (h : Severable conf past files net servers i a p l s)
    (hi : i ∈ conf.members) (hlen : s.logEntries.length + 1 < 2 ^ 64) {request : Request}
    (hfits : s.role = .leader → Admits LogEntry.WellFormed request.command)
    {r : Waiter × Server} (hr : s.propose request = some r)
    (h' : Stage conf past files net servers i a p l r.2) :
    Severable conf past files net servers i a p l r.2 := by
  obtain ⟨hrole, hw, hs'⟩ := Server.propose_eq hr
  obtain ⟨b, hg, hb⟩ := h.simulated
  obtain ⟨b', hg', hb'⟩ := hb.appendEntry hi hrole
    (e := (⟨request, s.nextLogIndex, s.metadata.currentTerm⟩ : Waiter).entry) rfl rfl
    ((hb.refines hi).log ▸ hlen)
  rw [hs', hw] at h' ⊢
  refine Severable.advanceCommit ?_ hi h'
  refine Severable.asFollower ?_ hi
  exact h.snoc ⟨⟨b', hg.trans hg', hb'⟩, h.tracked.appendEntry _,
    h.logged.appendEntry (h.logged.nextEntry (hfits hrole))⟩ rfl

end Rules

/-! ## Sections -/

namespace Cluster

variable {conf : Config} {c : Cluster} {tr : List (ℕ × Node.Event)} {a : Abstract}

/-- **Every section can be cut off after any of its effects.** -/
theorem Refined.severable (h : Refined conf tr c a) {i : ℕ} (hi : i ∈ conf.members) {g : Trigger}
    {x : Input} {net : List Packet} (hadm : c.Admissible (.run i g))
    (hfetch : c.fetch i g = some (x, net)) {m : Node} {os : List Output}
    (hm : (c.hosts i).handle x = some (m, os)) :
    Severable conf (fun j => effects j tr) (fun j => (c.hosts j).files) net
      (fun j => (c.hosts j).server) i a (c.hosts i).ballot (c.hosts i).server.logEntries
      m.server := by
  have hset := h.elections.settled i hi
  have hbounded := h.elections.bounded hfetch hadm.intact
  have hstorable := h.storable hadm hfetch
  have hstart : Severable conf (fun j => effects j tr) (fun j => (c.hosts j).files) net
      (fun j => (c.hosts j).server) i a (c.hosts i).ballot (c.hosts i).server.logEntries
      (c.hosts i).server := by
    refine Stage.severable ⟨⟨a, Confined.refl i a, ?_⟩, hset.tracked, (h.mirrored i hi).logged⟩
      hset.clean
    rw [Function.update_eq_self]
    exact h.sim.subset (fetch_subset hfetch)
  have hend : Stage conf (fun j => effects j tr) (fun j => (c.hosts j).files) net
      (fun j => (c.hosts j).server) i a (c.hosts i).ballot (c.hosts i).server.logEntries
      m.server := by
    obtain ⟨b, hg, hb, -⟩ := h.handle hi hadm hfetch hm
    exact ⟨⟨b, hg, hb⟩,
      Node.handle_tracked hm hset.tracked (conf.ne_zero i hi) (conf.lt i hi) hbounded,
      Node.handle_logged hm (h.mirrored i hi).logged admits_noop hstorable⟩
  have hlen := hadm.2.1
  cases Node.handle_section hm with
  | requestVote args => exact hstart.handleRequestVote hi hbounded.1 hend
  | appendEntries args r hr =>
    obtain ⟨L, hL⟩ := h.payload hadm hfetch
    exact hstart.handleAppendEntries hi h.sim.safetyInv hstorable.1 hstorable.2 hL hr hend
  | requestVoteReply t reply =>
    refine hstart.handleRequestVoteReply hi hbounded
      (fun hrole hterm hgranted hmaj b hg hb => ?_) hlen hend
    subst hterm
    obtain ⟨V, hV, hvotes⟩ := h.exists_votes hi hfetch hgranted hrole hmaj
    refine ⟨V, hV, fun v hv => (hg.grows.voted ?_).1⟩
    rw [hb, (h.refines hi).term]
    exact hvotes v hv
  | appendEntriesReply peer args reply => exact hstart.handleAppendEntriesReply hi hbounded hend
  | electionTimeout r hr =>
    have hthread : g = .thread .electionTimeout := fetch_of_isLocal hfetch rfl
    refine hstart.electionTimeout hi (hadm.1 hthread) (fun b v args hp => ?_) hlen hr hend
    exact (h.elections.packets _ (fetch_subset hfetch hp)).2.2.2
  | proposed request w s hp => exact hstart.propose hi hlen hstorable hp hend
  | atOnce request w s hp => exact hstart.propose hi hlen hstorable hp hend
  | contactFailed | sendRequestVotes | replicate | refused | wake => exact hstart.congr hend rfl

end Cluster

end RaftConsensus
