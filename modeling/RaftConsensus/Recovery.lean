import RaftConsensus.Ballot

/-!
# Terms and votes across crashes

A start does not change the ballot on disk (`bootEffects_idle`), and a node that runs has
its ballot on disk whenever no section is under way (`Node.Settled`).  So as long as no
crash tears a metadata file, terms never go down and no vote is given twice in a term.

`VoteInv` is the invariant behind the second part: a vote in the past is either of an
earlier term than the ballot on disk, or it is that ballot.  It is an invariant of what
the monitor reads, and knows nothing of sections, crashes or files.

* `term_and_votes_survive`: over a whole run of one node, whatever it is sent and wherever
  it crashes, if no metadata file is torn.
* `torn_metadata_forgets`: a crash between the open and the write of `updateMetaData` makes
  a node forget the terms it has sent and vote a second time.
-/

namespace RaftConsensus

/-! ## Votes that were given -/

/-- Among its effects node `i` gave its vote in term `t` to `c`.  A candidate votes for
itself. -/
def VotedIn (i : ℕ) (es : List Effect) (t c : ℕ) : Prop :=
  .votedFor c t ∈ es ∨ c = i ∧ .candidate t ∈ es

/-- The votes so far fit the ballot `p` on disk. -/
structure VoteInv (i : ℕ) (es : List Effect) (p : ℕ × ℕ) : Prop where
  le : ∀ {t c}, VotedIn i es t c → t < p.1 ∨ t = p.1 ∧ c = p.2 ∧ c ≠ 0
  unique : ∀ {t c c'}, VotedIn i es t c → VotedIn i es t c' → c = c'
  led_le : ∀ {t log}, .becomeLeader t log ∈ es → t ≤ p.1

theorem VoteInv.nil {i : ℕ} {p : ℕ × ℕ} : VoteInv i [] p where
  le h := by rcases h with h | ⟨-, h⟩ <;> exact absurd h (by simp)
  unique h := by rcases h with h | ⟨-, h⟩ <;> exact absurd h (by simp)
  led_le h := absurd h (by simp)

theorem VotedIn.mono {i t c : ℕ} {es es' : List Effect} (h : VotedIn i es t c) (hs : es ⊆ es') :
    VotedIn i es' t c := by
  rcases h with h | ⟨hc, h⟩
  · exact Or.inl (hs h)
  · exact Or.inr ⟨hc, hs h⟩

theorem VoteInv.anti {i : ℕ} {es es' : List Effect} {p : ℕ × ℕ} (h : VoteInv i es' p)
    (hs : es ⊆ es') : VoteInv i es p where
  le hv := h.le (hv.mono hs)
  unique hv hv' := h.unique (hv.mono hs) (hv'.mono hs)
  led_le hl := h.led_le (hs hl)

/-- A vote among `es ++ [e]` is among `es`, or it is the ballot on disk. -/
theorem votedIn_snoc {i t c : ℕ} {es : List Effect} {e : Effect} {p : ℕ × ℕ}
    (hok : e.Lawful i p) (h : VotedIn i (es ++ [e]) t c) :
    VotedIn i es t c ∨ p = (t, c) ∧ c ≠ 0 ∧ e.ballot p = p := by
  rcases h with h | ⟨rfl, h⟩ <;> rcases List.mem_append.mp h with h | h
  · exact Or.inl (Or.inl h)
  · obtain rfl := (List.mem_singleton.mp h).symm
    exact Or.inr ⟨hok.1, hok.2, rfl⟩
  · exact Or.inl (Or.inr ⟨rfl, h⟩)
  · obtain rfl := (List.mem_singleton.mp h).symm
    exact Or.inr ⟨hok.1, hok.2, rfl⟩

/-- A lawful effect does not lower the term on disk. -/
theorem Effect.Lawful.term_le {i : ℕ} {p : ℕ × ℕ} {e : Effect} (h : e.Lawful i p) :
    p.1 ≤ (e.ballot p).1 := by
  rcases e with m | _ | _ | _ | _ | _ | _ | _ | _ | _ | _ | _
  · rcases h.2.2 with hlt | ⟨heq, -⟩
    · exact hlt.le
    · exact heq.le
  · exact le_rfl
  · exact le_rfl
  · exact le_rfl
  · obtain rfl : p = (0, 0) := h
    exact le_rfl
  all_goals exact le_rfl

/-- **One lawful effect keeps the votes in order.** -/
theorem VoteInv.snoc {i : ℕ} {es : List Effect} {e : Effect} {p : ℕ × ℕ} (h : VoteInv i es p)
    (hok : e.Lawful i p) : VoteInv i (es ++ [e]) (e.ballot p) where
  le := by
    intro t c hv
    rcases votedIn_snoc hok hv with hv | ⟨rfl, hc, hsame⟩
    · have hold := h.le hv
      rcases e with m | _ | _ | _ | _ | _ | _ | _ | _ | _ | _ | _
      · obtain ⟨-, -, hle⟩ := hok
        show t < m.currentTerm ∨ t = m.currentTerm ∧ c = m.votedFor ∧ c ≠ 0
        rcases hle with hlt | ⟨heq, hfree⟩
        · left
          omega
        · rcases hold with hlt | ⟨rfl, rfl, hc⟩
          · left
            omega
          · right
            exact ⟨heq, hfree.resolve_left hc, hc⟩
      · exact hold
      · exact hold
      · exact hold
      · obtain rfl : p = (0, 0) := hok
        exact hold
      all_goals exact hold
    · rw [hsame]
      exact Or.inr ⟨rfl, rfl, hc⟩
  unique := by
    intro t c c' hv hv'
    have hmixed : ∀ {c c'}, VotedIn i es t c → p = (t, c') → c = c' := by
      rintro c c' hv rfl
      rcases h.le hv with hlt | ⟨-, heq, -⟩
      · exact absurd hlt (lt_irrefl _)
      · exact heq
    rcases votedIn_snoc hok hv with hv | ⟨hp, -⟩ <;>
      rcases votedIn_snoc hok hv' with hv' | ⟨hp', -⟩
    · exact h.unique hv hv'
    · exact hmixed hv hp'
    · exact (hmixed hv' hp).symm
    · rw [hp] at hp'
      exact (Prod.mk.inj hp').2
  led_le := by
    intro t log hl
    rcases List.mem_append.mp hl with hl | hl
    · exact (h.led_le hl).trans hok.term_le
    · obtain rfl := (List.mem_singleton.mp hl).symm
      exact hok.ge

/-- What the monitor reads keeps the votes in order. -/
theorem VoteInv.reads {i : ℕ} {es es' : List Effect} {p q : ℕ × ℕ} (h : VoteInv i es p)
    (hr : (ballots i).Reads p es' q) : VoteInv i (es ++ es') q :=
  hr.invariant (fun _ _ _ hI hok => VoteInv.snoc hI hok) es h

/-- The term on disk never goes down. -/
theorem ballots_term_mono {i : ℕ} {es : List Effect} {p q : ℕ × ℕ} (h : (ballots i).Reads p es q) :
    p.1 ≤ q.1 := by
  refine h.invariant (I := fun _ r => p.1 ≤ r.1) (fun _ r e hle hok => ?_) [] le_rfl
  exact hle.trans (Effect.Lawful.term_le hok)

/-! ## Starts -/

theorem readLittleEndian_lt (data : Bytes) (pos : ℕ) : readLittleEndian data pos < 2 ^ 64 := by
  refine (ofBigEndian_lt _).trans_le ?_
  calc 256 ^ ((data.drop pos).take 8).reverse.length ≤ 256 ^ 8 := by
        refine Nat.pow_le_pow_right (by decide) ?_
        rw [List.length_reverse, List.length_take]
        exact min_le_left _ _
    _ = 2 ^ 64 := by norm_num

theorem getMetaData_lt (files : Files) :
    (getMetaData files).currentTerm < 2 ^ 64 ∧ (getMetaData files).votedFor < 2 ^ 64 := by
  unfold getMetaData
  split
  · exact ⟨by decide, by decide⟩
  · split
    · exact ⟨by decide, by decide⟩
    · exact ⟨readLittleEndian_lt _ _, readLittleEndian_lt _ _⟩

/-- **`recover` in closed form.** -/
theorem recover_eq (i : ℕ) (ps : List ℕ) (files : Files) :
    recover i ps files =
      let n := min (getMetaData files).commitIndex (readLogs files).1.length
      let committed := (readLogs files).1.take n
      let m := { getMetaData files with commitIndex := n, lastApplied := n }
      { Server.new i ps with
        stateMachine := .replay committed
        metadata := m
        logEntries := (readLogs files).1
        effects :=
          (if (readLogs files).2 < ((files .logs).getD []).length then
            [.truncateLogFile (readLogs files).2] else []) ++
          Server.appliedMarks 0 committed ++ [.updateMetaData m] } := by
  rcases hr : readLogs files with ⟨logs, validBytes⟩
  simp only [recover, hr, Server.replayCommitted_eq]
  split <;>
    simp [Server.applied, Server.persistMetaData, Server.emit, Server.new, KVStateMachine.replay]

/-- The effects that a node with the ballot `p` may have, and that leave it alone. -/
def Idle (i : ℕ) (p : ℕ × ℕ) (es : List Effect) : Prop :=
  ∀ e ∈ es, (ballots i).ok p e ∧ (ballots i).next p e = p

theorem initStorage_idle (i : ℕ) (files : Files) :
    Idle i (diskBallot files) (initStorage files) := by
  intro e he
  rcases List.mem_append.mp he with he | he
  · split at he
    · next hnone =>
      have hzero : diskBallot files = (0, 0) := by
        rw [diskBallot, getMetaData, hnone]
        rfl
      rw [List.mem_singleton.mp he, hzero]
      exact ⟨rfl, rfl⟩
    · exact absurd he (by simp)
  · split at he
    · rw [List.mem_singleton.mp he]
      exact ⟨trivial, rfl⟩
    · exact absurd he (by simp)

theorem diskBallot_initStorage (files : Files) :
    diskBallot (perform (initStorage files) files) = diskBallot files :=
  diskBallot_perform (Monitor.Reads.idle (initStorage_idle 0 files)) rfl

theorem recover_idle (i : ℕ) (ps : List ℕ) (files : Files) :
    Idle i (diskBallot files) (recover i ps files).effects := by
  intro e he
  rw [recover_eq] at he
  rcases List.mem_append.mp he with he | he
  · rcases List.mem_append.mp he with he | he
    · split at he
      · rw [List.mem_singleton.mp he]
        exact ⟨trivial, rfl⟩
      · exact absurd he (by simp)
    · obtain ⟨index, command, rfl⟩ := Server.mem_appliedMarks he
      exact ⟨trivial, rfl⟩
  · rw [List.mem_singleton.mp he]
    have hlt := getMetaData_lt files
    exact ⟨⟨hlt.1, hlt.2, Or.inr ⟨rfl, Or.inr rfl⟩⟩, rfl⟩

/-- **A start leaves the ballot on disk alone.** -/
theorem bootEffects_idle (i : ℕ) (ps : List ℕ) (files : Files) :
    Idle i (diskBallot files) (Node.bootEffects i ps files) := by
  have hrec := recover_idle i ps (perform (initStorage files) files)
  rw [diskBallot_initStorage] at hrec
  intro e he
  rcases List.mem_append.mp he with he | he
  · exact initStorage_idle i files e he
  · exact hrec e he

/-- The effects that a start can have. -/
def Effect.IsBoot : Effect → Prop
  | updateMetaData _ | createMetaData | createLogs | truncateLogFile _ | applied .. => True
  | _ => False

theorem isBoot_bootEffects {i : ℕ} {ps : List ℕ} {files : Files} {e : Effect}
    (he : e ∈ Node.bootEffects i ps files) : e.IsBoot := by
  rcases List.mem_append.mp he with he | he
  · rcases List.mem_append.mp he with he | he
    · split at he
      · rw [List.mem_singleton.mp he]
        trivial
      · exact absurd he (by simp)
    · split at he
      · rw [List.mem_singleton.mp he]
        trivial
      · exact absurd he (by simp)
  · rw [recover_eq] at he
    rcases List.mem_append.mp he with he | he
    · rcases List.mem_append.mp he with he | he
      · split at he
        · rw [List.mem_singleton.mp he]
          trivial
        · exact absurd he (by simp)
      · obtain ⟨index, command, rfl⟩ := Server.mem_appliedMarks he
        trivial
    · rw [List.mem_singleton.mp he]
      trivial

/-! ## Nodes at rest -/

namespace Node

variable {i : ℕ} {ps : List ℕ} {n n' : Node}

/-- The ballot of a node. -/
def ballot (n : Node) : ℕ × ℕ := (n.server.metadata.currentTerm, n.server.metadata.votedFor)

/-- Between two sections: nothing is left to be written, and the ballot on disk is the one in
memory. -/
structure Settled (i : ℕ) (ps : List ℕ) (n : Node) : Prop where
  tracked : n.server.Tracked i ps n.ballot
  clean : n.server.effects = []
  disk : diskBallot n.files = n.ballot

/-- A node just started has the ballot of its files. -/
theorem start_ballot (i : ℕ) (ps : List ℕ) (files : Files) (boot : ℕ) :
    (start i ps files boot).ballot = diskBallot files := by
  rw [← diskBallot_initStorage, ballot, start, recover_eq]
  rfl

theorem start_settled (i : ℕ) (ps : List ℕ) (files : Files) (boot : ℕ) :
    (start i ps files boot).Settled i ps where
  tracked :=
    { nodeId := by rw [start, recover_eq]; rfl
      peers := by rw [start, recover_eq]; rfl
      running := rfl
      term_lt := by
        rw [start, recover_eq]
        exact (getMetaData_lt _).1
      voted_lt := by
        rw [start, recover_eq]
        exact (getMetaData_lt _).2
      reads := .nil _ }
  clean := rfl
  disk := (diskBallot_perform (Monitor.Reads.idle (bootEffects_idle i ps files)) rfl).trans
    (start_ballot i ps files boot).symm

/-- None of the crash points of a sequence of failed starts tears the metadata. -/
def IntactStarts (i : ℕ) (ps : List ℕ) : List CrashPoint → Files → Prop
  | [], _ => True
  | c :: cs, files => ¬ TornAt (bootEffects i ps files) c ∧
      IntactStarts i ps cs (crashFiles (bootEffects i ps files) c files)

/-- Failed starts that tear nothing leave the ballot on disk alone. -/
theorem failedStarts_idle {cs : List CrashPoint} {files : Files} (h : IntactStarts i ps cs files) :
    diskBallot (failedStarts i ps cs files).2 = diskBallot files ∧
      Idle i (diskBallot files) (failedStarts i ps cs files).1 := by
  induction cs generalizing files with
  | nil => exact ⟨rfl, fun e he => absurd he (by simp [failedStarts])⟩
  | cons c cs ih =>
    obtain ⟨hc, hcs⟩ := h
    have hidle := bootEffects_idle i ps files
    obtain ⟨k, -, hk⟩ := ballots_crashFiles (Monitor.Reads.idle hidle) rfl hc
    have hsame : diskBallot (crashFiles (bootEffects i ps files) c files) = diskBallot files :=
      hk.unique (Monitor.Reads.idle fun e he => hidle e (List.mem_of_mem_take he))
    obtain ⟨hdisk, hrest⟩ := ih hcs
    rw [hsame] at hdisk hrest
    refine ⟨hdisk, fun e he => ?_⟩
    rcases List.mem_append.mp he with he | he
    · exact hidle e (List.mem_of_mem_take he)
    · exact hrest e he

/-- A restart has only the effects of starts. -/
theorem isBoot_restart {cs : List CrashPoint} {files : Files} {e : Effect}
    (he : e ∈ (n.restart cs files).2) : e.IsBoot := by
  have hfailed : ∀ (cs : List CrashPoint) (files : Files),
      ∀ e ∈ (failedStarts n.server.nodeId n.server.peers cs files).1, e.IsBoot := by
    intro cs
    induction cs with
    | nil => intro files e he; exact absurd he (by simp [failedStarts])
    | cons c cs ih =>
      intro files e he
      rcases List.mem_append.mp he with he | he
      · exact isBoot_bootEffects (List.mem_of_mem_take he)
      · exact ih _ e he
  rcases List.mem_append.mp he with he | he
  · exact hfailed cs files e he
  · exact isBoot_bootEffects he

/-- A node just started is a follower. -/
theorem start_role (i : ℕ) (ps : List ℕ) (files : Files) (boot : ℕ) :
    (start i ps files boot).server.role = .follower := by
  rw [start, recover_eq]
  rfl

theorem restart_role (n : Node) (cs : List CrashPoint) (files : Files) :
    (n.restart cs files).1.server.role = .follower := start_role _ _ _ _

/-- **A restart that tears nothing** gives a node that has the ballot of the disk. -/
theorem restart_settled {cs : List CrashPoint} {files : Files} (hid : n.server.nodeId = i)
    (hps : n.server.peers = ps) (h : IntactStarts i ps cs files) :
    (n.restart cs files).1.Settled i ps ∧ (n.restart cs files).1.ballot = diskBallot files ∧
      Idle i (diskBallot files) (n.restart cs files).2 := by
  obtain ⟨hdisk, hidle⟩ := failedStarts_idle h
  subst hid hps
  refine ⟨start_settled _ _ _ _, (start_ballot _ _ _ _).trans hdisk, fun e he => ?_⟩
  rcases List.mem_append.mp he with he | he
  · exact hidle e he
  · rw [← hdisk]
    exact bootEffects_idle _ _ _ e he

/-- The effects of a trace. -/
def effects (tr : List Event) : List Effect :=
  tr.filterMap fun
    | .effect e => some e
    | .output _ => none

@[simp] theorem effects_append (tr tr' : List Event) :
    effects (tr ++ tr') = effects tr ++ effects tr' := List.filterMap_append

@[simp] theorem effects_map_effect (es : List Effect) : effects (es.map .effect) = es := by
  rw [effects, List.filterMap_map]
  exact List.filterMap_some

@[simp] theorem effects_map_output (os : List Output) : effects (os.map .output) = [] := by
  rw [effects, List.filterMap_map]
  exact List.filterMap_eq_nil_iff.mpr fun _ _ => rfl

/-- The effects in the events of a section. -/
theorem effects_section (es : List Effect) (os : List Output) :
    effects (es.map .effect ++ os.map .output) = es := by
  rw [effects_append, effects_map_effect, effects_map_output, List.append_nil]

theorem mem_effects {tr : List Event} {e : Effect} : e ∈ effects tr ↔ .effect e ∈ tr := by
  rw [effects, List.mem_filterMap]
  constructor
  · rintro ⟨x | x, hx, heq⟩
    · rwa [← Option.some.inj heq]
    · exact absurd heq (by simp)
  · intro h
    exact ⟨_, h, rfl⟩

/-- What is assumed of a step of a node: its input is bounded, and no crash tears the metadata
file. -/
def Intact (n : Node) : Action → Prop
  | .run x => x.Bounded n.server
  | .crash retries => IntactStarts n.server.nodeId n.server.peers retries n.files
  | .crashIn x c retries => x.Bounded n.server ∧ ∀ r, n.handle x = some r →
      ¬ TornAt r.1.server.effects c ∧
        IntactStarts n.server.nodeId n.server.peers retries
          (crashFiles r.1.server.effects c n.files)

/-- A section leaves the files and the number of starts alone. -/
theorem handle_frame {x : Input} {r : Node × List Output} (hr : n.handle x = some r) :
    r.1.files = n.files ∧ r.1.boot = n.boot := by
  obtain ⟨m, os⟩ := r
  cases handle_section hr <;> exact ⟨rfl, rfl⟩

theorem step_run {x : Input} {m : Node} {os : List Output} (hm : n.handle x = some (m, os)) :
    n.step (.run x) = some (m.flush, m.server.effects.map .effect ++ os.map .output) := by
  rw [step, hm]
  rfl

theorem step_crashIn {x : Input} {m : Node} {os : List Output} (hm : n.handle x = some (m, os))
    (c : CrashPoint) (retries : List CrashPoint) :
    n.step (.crashIn x c retries) =
      some ((n.restart retries (crashFiles m.server.effects c n.files)).1,
        (m.server.effects.take c.done ++
          (n.restart retries (crashFiles m.server.effects c n.files)).2).map .effect) := by
  rw [step, hm]
  rfl

/-- What a section has written when it is over. -/
theorem flush_settled (h : n.Settled i ps) {m : Node} (hm : m.server.Tracked i ps n.ballot)
    (hfiles : m.files = n.files) : m.flush.Settled i ps where
  tracked :=
    { nodeId := hm.nodeId
      peers := hm.peers
      running := hm.running
      term_lt := hm.term_lt
      voted_lt := hm.voted_lt
      reads := .nil _ }
  clean := rfl
  disk := diskBallot_perform hm.reads (hfiles ▸ h.disk)

/-- **A step keeps votes in order**, and the term does not go down. -/
theorem step_votes (hi : i ≠ 0) (hi' : i < 2 ^ 64) (h : n.Settled i ps) {a : Action}
    (ha : n.Intact a) {evs : List Event} (hs : n.step a = some (n', evs)) {es : List Effect}
    (hv : VoteInv i es n.ballot) :
    n'.Settled i ps ∧ n.ballot.1 ≤ n'.ballot.1 ∧ VoteInv i (es ++ effects evs) n'.ballot := by
  have hid := h.tracked.nodeId
  have hps := h.tracked.peers
  rcases a with x | retries | ⟨x, c, retries⟩
  · obtain ⟨⟨m, os⟩, hm, heq⟩ := Option.map_eq_some_iff.mp hs
    obtain ⟨rfl, rfl⟩ := Prod.mk.inj heq
    have ht := handle_tracked hm h.tracked hi hi' ha
    refine ⟨flush_settled h ht (handle_frame hm).1, ballots_term_mono ht.reads, ?_⟩
    rw [effects_section]
    exact hv.reads ht.reads
  · obtain ⟨rfl, rfl⟩ := Prod.mk.inj (Option.some.inj hs)
    subst hid hps
    obtain ⟨hset, hballot, hidle⟩ := restart_settled rfl rfl ha
    rw [h.disk] at hballot hidle
    rw [hballot, effects_map_effect]
    exact ⟨hset, le_rfl, hv.reads (Monitor.Reads.idle hidle)⟩
  · obtain ⟨⟨m, os⟩, hm, heq⟩ := Option.map_eq_some_iff.mp hs
    obtain ⟨rfl, rfl⟩ := Prod.mk.inj heq
    have ht := handle_tracked hm h.tracked hi hi' ha.1
    obtain ⟨hc, hstarts⟩ := ha.2 _ hm
    subst hid hps
    obtain ⟨k, hk, hreads⟩ := ballots_crashFiles ht.reads h.disk hc
    obtain ⟨hset, hballot, hidle⟩ := restart_settled rfl rfl hstarts
    dsimp only at hset hballot hidle ⊢
    rw [hballot, effects_map_effect, ← List.append_assoc]
    refine ⟨hset, ballots_term_mono hreads, VoteInv.reads ?_ (Monitor.Reads.idle hidle)⟩
    -- the disk may be one write ahead of what was marked
    refine (hv.reads hreads).anti ?_
    exact List.append_subset.mpr ⟨List.subset_append_left _ _,
      fun e he => List.mem_append_right _
        ((List.take_prefix_take_left hk).subset he)⟩

/-- One node as a machine, freshly started on an empty directory. -/
def machine (i : ℕ) (ps : List ℕ) : Machine Node Action Event where
  init := start i ps Files.none 0
  step := step

end Node

/-! ## What a node has said -/

/-- The term that a message carries. -/
def Output.term? : Output → Option ℕ
  | requestVoteReply reply => some reply.term
  | appendEntriesReply reply => some reply.term
  | requestVotes args => some args.term
  | appendEntries _ args => some args.term
  | _ => none

/-- The terms of the messages that were sent. -/
def sentTerms (tr : List Node.Event) : List ℕ :=
  tr.filterMap fun
    | .effect _ => none
    | .output o => o.term?

@[simp] theorem sentTerms_append (tr tr' : List Node.Event) :
    sentTerms (tr ++ tr') = sentTerms tr ++ sentTerms tr' := List.filterMap_append

@[simp] theorem sentTerms_map_effect (es : List Effect) : sentTerms (es.map .effect) = [] := by
  rw [sentTerms, List.filterMap_map]
  exact List.filterMap_eq_nil_iff.mpr fun _ _ => rfl

@[simp] theorem sentTerms_map_output (os : List Output) :
    sentTerms (os.map .output) = os.filterMap Output.term? := by
  rw [sentTerms, List.filterMap_map]
  rfl

namespace Server

variable {s : Server}

theorem handleRequestVote_term (s : Server) (args : RequestVoteArgs) :
    (s.handleRequestVote args).1.term = (s.handleRequestVote args).2.metadata.currentTerm := by
  generalize hr : s.handleRequestVote args = r
  cases handleRequestVote_way hr with
  | old | granted | denied => rfl

theorem storeEntries_metadata {entries : List LogEntry} {s' : Server}
    (h : s.storeEntries entries = some s') : s'.metadata = s.metadata := by
  cases storeEntries_way h with
  | same | rewritten => rfl

theorem handleAppendEntries_term {args : AppendEntriesArgs} {r : AppendEntriesReply × Server}
    (h : s.handleAppendEntries args = some r) : r.1.term = r.2.metadata.currentTerm := by
  cases handleAppendEntries_way h with
  | old | mismatch => rfl
  | stored hterm hprev s' hs' =>
    obtain ⟨es, hc⟩ := s'.followCommit_commits args
    exact hc.currentTerm.symm

end Server

/-- **Whatever a section sends carries the term of the node.** -/
theorem Node.handle_term {n : Node} {x : Input} {r : Node × List Output}
    (hr : n.handle x = some r) {o : Output} (ho : o ∈ r.2) {t : ℕ} (ht : o.term? = some t) :
    t = r.1.server.metadata.currentTerm := by
  obtain ⟨m, os⟩ := r
  cases handle_section hr with
  | requestVote args =>
    rw [List.mem_singleton.mp ho] at ht
    rw [← Option.some.inj ht]
    exact n.server.handleRequestVote_term args
  | appendEntries args r hr' =>
    rw [List.mem_singleton.mp ho] at ht
    rw [← Option.some.inj ht]
    exact Server.handleAppendEntries_term hr'
  | sendRequestVotes hcamp =>
    rw [List.mem_singleton.mp ho] at ht
    exact (Option.some.inj ht).symm
  | replicate peer args hpeer hargs =>
    rw [List.mem_singleton.mp ho] at ht
    unfold Server.appendEntriesArgs at hargs
    split at hargs
    · exact absurd hargs (by simp)
    · rw [← Option.some.inj ht, ← Option.some.inj hargs]
  | requestVoteReply | appendEntriesReply | contactFailed | electionTimeout =>
    exact absurd ho (by simp)
  | refused | proposed | wake =>
    rw [List.mem_singleton.mp ho] at ht
    exact absurd ht (by simp [Output.term?])
  | atOnce request w s hp =>
    -- a client thread sends no term
    rcases List.mem_pair.mp ho with rfl | rfl <;> exact absurd ht (by simp [Output.term?])

/-! ## Whole runs -/

/-- The term of a node is at least every term it has sent, and it gave no two votes in one
term. -/
def TermsAndVotesSurvive (i : ℕ) (tr : List Node.Event) (n : Node) : Prop :=
  (∀ t ∈ sentTerms tr, t ≤ n.server.metadata.currentTerm) ∧
    ∀ t c c', VotedIn i (Node.effects tr) t c → VotedIn i (Node.effects tr) t c' → c = c'

/-- What a run keeps. -/
structure Node.BallotInv (i : ℕ) (ps : List ℕ) (tr : List Node.Event) (n : Node) : Prop where
  settled : n.Settled i ps
  votes : VoteInv i (Node.effects tr) n.ballot
  sent_le : ∀ t ∈ sentTerms tr, t ≤ n.server.metadata.currentTerm

/-- **One step keeps the invariant.** -/
theorem Node.BallotInv.step {i : ℕ} {ps : List ℕ} {n n' : Node} {tr evs : List Node.Event}
    (h : n.BallotInv i ps tr) (hi : i ≠ 0) (hi' : i < 2 ^ 64) {a : Node.Action}
    (ha : n.Intact a) (hs : n.step a = some (n', evs)) : n'.BallotInv i ps (tr ++ evs) := by
  obtain ⟨hset, hmono, hvotes⟩ := Node.step_votes hi hi' h.settled ha hs h.votes
  refine ⟨hset, by rwa [Node.effects_append], fun t ht => ?_⟩
  rw [sentTerms_append, List.mem_append] at ht
  rcases ht with ht | ht
  · exact (h.sent_le t ht).trans hmono
  · rcases a with x | retries | ⟨x, c, retries⟩
    · obtain ⟨⟨m, os⟩, hm, heq⟩ := Option.map_eq_some_iff.mp hs
      obtain ⟨rfl, rfl⟩ := Prod.mk.inj heq
      rw [sentTerms_append, sentTerms_map_effect, sentTerms_map_output, List.nil_append,
        List.mem_filterMap] at ht
      obtain ⟨o, ho, hot⟩ := ht
      exact (Node.handle_term hm ho hot).le
    · obtain ⟨-, rfl⟩ := Prod.mk.inj (Option.some.inj hs)
      rw [sentTerms_map_effect] at ht
      exact absurd ht (by simp)
    · obtain ⟨⟨m, os⟩, -, heq⟩ := Option.map_eq_some_iff.mp hs
      obtain ⟨-, rfl⟩ := Prod.mk.inj heq
      rw [sentTerms_map_effect] at ht
      exact absurd ht (by simp)

/-- **Terms and votes survive crashes that tear no metadata file**, over every run of a node. -/
theorem term_and_votes_survive {i : ℕ} {ps : List ℕ} (hi : i ≠ 0) (hi' : i < 2 ^ 64)
    {tr : List Node.Event} {n : Node} (h : Run (Node.machine i ps) Node.Intact tr n) :
    TermsAndVotesSurvive i tr n := by
  have hinv : n.BallotInv i ps tr := by
    refine h.invariant (I := fun tr n => n.BallotInv i ps tr) ?_ ?_
    · exact ⟨Node.start_settled i ps _ 0, VoteInv.nil, by simp [sentTerms]⟩
    · intro tr s a s' es _ hI hP hs
      exact hI.step hi hi' hP hs
  exact ⟨hinv.sent_le, fun _ _ _ => hinv.votes.unique⟩

/-- A node that votes, crashes and is asked again. -/
theorem term_and_votes_survive_crash : ∃ tr n, Run (Node.machine 1 [2, 3]) Node.Intact tr n ∧
    TermsAndVotesSurvive 1 tr n ∧ sentTerms tr = [1, 1] := by
  let p : Node → Node.Action → Bool
    | n, .run x => decide (x.Bounded n.server)
    | _, .crash [] => true
    | _, _ => false
  have hp : ∀ n a, p n a = true → n.Intact a := by
    intro n a h
    rcases a with x | ⟨_ | _⟩ | _
    · exact of_decide_eq_true (p := x.Bounded n.server) h
    · trivial
    · exact absurd h (by simp [p])
    · exact absurd h (by simp [p])
  obtain ⟨tr, n, hrun, hsent⟩ := Run.exists_of_exec hp
    (M := Node.machine 1 [2, 3]) (fun _ tr => decide (sentTerms tr = [1, 1]))
    [.run (.requestVote ⟨1, 2, 0, 0⟩), .crash [], .run (.requestVote ⟨1, 3, 0, 0⟩)]
    (by decide +kernel)
  exact ⟨tr, n, hrun, term_and_votes_survive (by decide) (by decide) hrun,
    of_decide_eq_true hsent⟩

/-- What is assumed of a step when crashes may fall anywhere. -/
def Node.Bounded (n : Node) : Node.Action → Prop
  | .run x => x.Bounded n.server
  | .crash _ => True
  | .crashIn x _ _ => x.Bounded n.server

instance (n : Node) : (a : Node.Action) → Decidable (n.Bounded a)
  | .run x | .crashIn x _ _ => inferInstanceAs (Decidable (x.Bounded n.server))
  | .crash _ => inferInstanceAs (Decidable True)

/-- **A torn metadata file makes a node forget.**  Node 1 votes for node 2 in term 1.  While it
raises its term for the next request it crashes between the open and the write.  It comes
back in term 0, and gives its vote of term 1 to node 3 as well. -/
theorem torn_metadata_forgets :
    (∃ tr n, Run (Node.machine 1 [2, 3]) Node.Bounded tr n ∧
      ¬ ∀ t ∈ sentTerms tr, t ≤ n.server.metadata.currentTerm) ∧
    ∃ tr n, Run (Node.machine 1 [2, 3]) Node.Bounded tr n ∧
      ¬ ∀ t c c', VotedIn 1 (Node.effects tr) t c → VotedIn 1 (Node.effects tr) t c' → c = c' := by
  have hp : ∀ (n : Node) (a : Node.Action), decide (n.Bounded a) = true → n.Bounded a :=
    fun _ _ h => of_decide_eq_true h
  refine ⟨?_, ?_⟩
  · obtain ⟨tr, n, hrun, h⟩ := Run.exists_of_exec hp (M := Node.machine 1 [2, 3])
      (fun n tr => decide (1 ∈ sentTerms tr ∧ n.server.metadata.currentTerm = 0))
      [.run (.requestVote ⟨1, 2, 0, 0⟩), .crashIn (.requestVote ⟨2, 2, 0, 0⟩) ⟨0, 1⟩ []]
      (by decide +kernel)
    obtain ⟨hsent, hterm⟩ := of_decide_eq_true h
    refine ⟨tr, n, hrun, fun hall => ?_⟩
    have := hall 1 hsent
    omega
  · obtain ⟨tr, n, hrun, h⟩ := Run.exists_of_exec hp (M := Node.machine 1 [2, 3])
      (fun _ tr => decide (.votedFor 2 1 ∈ Node.effects tr ∧
        .votedFor 3 1 ∈ Node.effects tr))
      [.run (.requestVote ⟨1, 2, 0, 0⟩), .crashIn (.requestVote ⟨2, 2, 0, 0⟩) ⟨0, 1⟩ [],
        .run (.requestVote ⟨1, 3, 0, 0⟩)]
      (by decide +kernel)
    obtain ⟨h2, h3⟩ := of_decide_eq_true h
    exact ⟨tr, n, hrun, fun hall => absurd (hall 1 2 3 (Or.inl h2) (Or.inl h3)) (by decide)⟩

end RaftConsensus
