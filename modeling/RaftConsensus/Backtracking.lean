import RaftConsensus.Redelivery
import RaftConsensus.Wire

/-!
# The inner loop of `replicationLoop`

The thread of a peer sends the log from `nextIndex` on.  If the peer refuses, it goes back by
one and sends again at once; if the peer accepts, it stops, and takes it that the peer has all
that was sent.  Here the loop runs against `handleAppendEntries`, with the bytes of the requests
and of the replies, and nothing else happens in between: `replicationRound` is one turn, and
`replicationRounds` the loop.

A refusal changes neither log, so what the loop meets at each turn is one request of the same
family, with one more entry.  At `nextIndex = 1` there is no previous entry, and the request
is accepted.  So the loop always ends, and always with full credit for the peer.

* `replicationRounds_converge_iff`: the credit is right exactly if the peer held every entry that
  does not fit its length fields.
* `replicationRounds_diverge`: with a key of 65536 bytes the peer is credited with what it lacks.
-/

namespace RaftConsensus

/-- One turn of the loop: `nextIndex` before it, the reply, the two servers after it, and whether
the loop goes on. -/
structure Round where
  nextIndex : ℕ
  reply : AppendEntriesReply
  leader : Server
  follower : Server
  keepGoing : Bool

namespace Server

/-- `keepGoing` after the reply; `s` is the server that has sent `args` and got the reply, and `s'`
the server that has handled it. -/
def keepGoing (s s' : Server) (peer : ℕ) (args : AppendEntriesArgs) (reply : AppendEntriesReply) :
    Bool :=
  if s.metadata.currentTerm < reply.term then false
  else if s.role ≠ .leader ∨ s.metadata.currentTerm ≠ args.term then false
  else if reply.success then decide (s'.nextIndex peer ≤ s.logEntries.length)
  else decide (1 < s.nextIndex peer)

/-- The turn in which `args` is sent to the peer, whose server is `follower`: the request and the
reply are serialized and deserialized.  `none` is an access outside the bytes, or outside the log of
the peer. -/
def replicationRound (leader follower : Server) (peer : ℕ) (args : AppendEntriesArgs) :
    Option Round := do
  let (sent, follower) ← follower.receiveRequest args
  let reply ← deserializeAppendEntriesReply (serializeAppendEntriesReply sent)
  let leader' := leader.handleAppendEntriesReply peer args reply
  return ⟨leader.nextIndex peer, reply, leader', follower,
    leader.keepGoing leader' peer args reply⟩

/-- The loop, for `fuel` turns at most; `none` if it has not ended then. -/
def replicationRounds (peer : ℕ) : ℕ → Server → Server → Option (List Round)
  | 0, _, _ => none
  | fuel + 1, leader, follower =>
    if !leader.running then some []
    else
      match leader.appendEntriesArgs peer with
      | none => some []
      | some args =>
        match leader.replicationRound follower peer args with
        | none => none
        | some round =>
          if round.keepGoing then
            (replicationRounds peer fuel round.leader round.follower).map (round :: ·)
          else some [round]

/-! ## One turn -/

/-- The reply arrives as it is. -/
theorem replicationRound_eq (leader : Server) {follower : Server} (peer : ℕ)
    {args : AppendEntriesArgs} {r : AppendEntriesReply × Server}
    (hr : follower.receiveRequest args = some r)
    (hterm : r.1.term < 2 ^ 64) :
    leader.replicationRound follower peer args =
      some ⟨leader.nextIndex peer, r.1, leader.handleAppendEntriesReply peer args r.1, r.2,
        leader.keepGoing (leader.handleAppendEntriesReply peer args r.1) peer args r.1⟩ := by
  rw [replicationRound, hr]
  simp only [Option.bind_eq_bind, Option.bind_some, deserializeAppendEntriesReply_serialize hterm]
  rfl

/-- The indices of a peer that has accepted. -/
theorem withCredit_indices (s : Server) (peer : ℕ) {args : AppendEntriesArgs}
    (h64 : args.lastSent + 1 < 2 ^ 64) (hle : s.matchIndex peer ≤ args.lastSent) :
    (s.withCredit peer args).advanceCommit.matchIndex peer = args.lastSent ∧
      (s.withCredit peer args).advanceCommit.nextIndex peer = args.lastSent + 1 := by
  have hmatch : s.creditedMatch peer args peer = args.lastSent := by
    rw [creditedMatch_self, ← AppendEntriesArgs.lastSent, Nat.mod_eq_of_lt (by omega),
      max_eq_right hle]
  obtain ⟨es, hc⟩ := (s.withCredit peer args).advanceCommit_commits
  refine ⟨(congrFun hc.matchIndex peer).trans hmatch, (congrFun hc.nextIndex peer).trans ?_⟩
  show Function.update _ _ _ _ = _
  rw [Function.update_self, hmatch, Nat.mod_eq_of_lt h64]

end Server

/-- What holds of the two servers before each turn.  Numbers are 64-bit numbers, and the log fits
into one message. -/
structure Backtracking (leader follower : Server) (peer : ℕ) : Prop where
  role : leader.role = .leader
  running : leader.running = true
  indexed : Indexed leader.logEntries
  matching : Matching follower.logEntries leader.logEntries
  term_le : follower.metadata.currentTerm ≤ leader.metadata.currentTerm
  matchIndex : leader.matchIndex peer = 0
  pos : 1 ≤ leader.nextIndex peer
  le : leader.nextIndex peer ≤ leader.logEntries.length + 1
  entry_lt : ∀ e ∈ leader.logEntries, e.term < 2 ^ 64
  term_lt : leader.metadata.currentTerm < 2 ^ 64
  nodeId_lt : leader.nodeId < 2 ^ 64
  commit_lt : leader.metadata.commitIndex < 2 ^ 64
  sendable : Sendable leader.logEntries

/-- What the follower's log `F` becomes when it accepts the end of the log `L`. -/
def Merged (F L log : List LogEntry) : Prop :=
  ∃ m changed, F.take m = L.take m ∧
    Server.reconcile F false ((L.drop m).filterMap decodeEntry) = some (log, changed)

section Merged

variable {F L log : List LogEntry}

/-- It comes to the whole of `L` if `F` holds what does not fit. -/
theorem Merged.eq_logAfter (h : Merged F L log) (hL : Indexed L) (hmatch : Matching F L)
    (hlt : ∀ e ∈ L, e.term < 2 ^ 64 ∧ e.index < 2 ^ 64)
    (hheld : ∀ (k : ℕ) (e : LogEntry), L[k]? = some e → ¬ e.WellFormed → F[k]? = some e) :
    log = logAfter F L L.length := by
  classical
  obtain ⟨m, changed, hm, hr⟩ := h
  rw [Server.reconcile_decoded hL hmatch hlt hm fun k e _ => hheld k e] at hr
  rw [logAfter, List.take_length]
  split at hr
  · next hpre => rw [if_pos hpre, (Prod.mk.inj (Option.some.inj hr)).1]
  · next hnot => rw [if_neg hnot, (Prod.mk.inj (Option.some.inj hr)).1]

/-- What does not fit is not made up for: it is there only if it was there before. -/
theorem Merged.held (h : Merged F L log) {k : ℕ} {e : LogEntry} (hk : log[k]? = some e)
    (hbad : ¬ e.WellFormed) : F[k]? = some e := by
  obtain ⟨m, changed, -, hr⟩ := h
  rcases Server.getElem?_reconcile hr hk with hold | hmem
  · exact hold
  · obtain ⟨x, -, hx⟩ := List.mem_filterMap.mp hmem
    exact absurd (wellFormed_of_decodeEntry hx) hbad

end Merged

namespace Backtracking

variable {leader follower : Server} {peer : ℕ} (h : Backtracking leader follower peer)

include h

/-- The request of the turn: a snapshot of the whole log. -/
theorem request : ∃ args, leader.appendEntriesArgs peer = some args ∧
    args.prevLogIndex = leader.nextIndex peer - 1 ∧ args.lastSent = leader.logEntries.length ∧
      args.term = leader.metadata.currentTerm ∧
        Snapshot leader.logEntries leader.metadata.currentTerm args := by
  have hpos := h.pos
  have hle := h.le
  have hlen := h.sendable.length_lt
  have hsent : ∃ args, leader.appendEntriesArgs peer = some args := by
    rw [Server.appendEntriesArgs, if_neg (by simp [h.role])]
    exact ⟨_, rfl⟩
  obtain ⟨args, hsent⟩ := hsent
  have hargs := hsent
  rw [Server.appendEntriesArgs, if_neg (by simp [h.role]), max_eq_right hpos] at hargs
  obtain rfl := Option.some.inj hargs
  refine ⟨_, hsent, rfl, ?_, rfl, leader, peer, hsent, rfl, List.prefix_rfl, hle, h.term_lt,
    h.nodeId_lt, ?_, ?_, h.commit_lt⟩
  · rw [AppendEntriesArgs.lastSent, List.length_drop]
    show leader.nextIndex peer - 1 + _ = _
    omega
  · show leader.nextIndex peer - 1 < 2 ^ 64
    omega
  · rw [termAt_eq_termBefore rfl]
    exact termBefore_lt h.entry_lt _

/-- A follower that has no later term does not refuse the first entries of a log. -/
theorem one_lt_of_refused {args : AppendEntriesArgs} {r : AppendEntriesReply × Server}
    (hprev : args.prevLogIndex = leader.nextIndex peer - 1)
    (hsnap : Snapshot leader.logEntries leader.metadata.currentTerm args)
    (hle : follower.metadata.currentTerm ≤ args.received.term)
    (hr : follower.handleAppendEntries args.received = some r) (hfail : r.1.success = false) :
    1 < leader.nextIndex peer := by
  have hpos := h.pos
  by_contra hone
  have hzero : args.received.prevLogIndex = 0 := by
    show args.prevLogIndex = 0
    omega
  have hmatches : follower.prevMatches args.received = true := by
    rw [Server.prevMatches, decide_eq_true hzero, Bool.true_or]
  obtain ⟨⟨log, changed⟩, hrecon⟩ := Option.isSome_iff_exists.mp
    (Server.reconcile_isSome (hsnap.index_ne_zero h.sendable h.indexed h.entry_lt)
      follower.logEntries false)
  obtain ⟨r', hr', hsucc, -⟩ := Server.handleAppendEntries_accept hle hmatches hrecon
  rw [hr] at hr'
  rw [Option.some.inj hr', hsucc] at hfail
  exact absurd hfail (by simp)

/-- After a refusal the loop stands as before it, one entry further back. -/
theorem back {leader' follower' : Server} (hnext : 1 < leader.nextIndex peer)
    (hleader : leader' = { leader.reached peer with
      nextIndex := Function.update leader.nextIndex peer (leader.nextIndex peer - 1) })
    (hlog : follower'.logEntries = follower.logEntries)
    (hterm : follower'.metadata.currentTerm ≤ leader.metadata.currentTerm) :
    leader'.nextIndex peer = leader.nextIndex peer - 1 ∧ Backtracking leader' follower' peer := by
  subst hleader
  have hnextIndex : Function.update leader.nextIndex peer (leader.nextIndex peer - 1) peer =
      leader.nextIndex peer - 1 := Function.update_self ..
  refine ⟨hnextIndex, h.role, h.running, h.indexed, ?_, hterm, h.matchIndex, ?_, ?_, h.entry_lt,
    h.term_lt, h.nodeId_lt, h.commit_lt, h.sendable⟩
  · rw [hlog]
    exact h.matching
  · dsimp only
    rw [hnextIndex]
    omega
  · dsimp only [Server.reached]
    rw [hnextIndex]
    have := h.le
    omega

/-- **One turn.**  Either the peer refuses, which leaves both logs alone, and the loop goes on from
the entry before; or it accepts and merges what arrives, and the loop is over. -/
theorem round : ∃ args r, leader.appendEntriesArgs peer = some args ∧
    leader.replicationRound follower peer args = some r ∧ r.nextIndex = leader.nextIndex peer ∧
      ((r.reply.success = false ∧ 1 < leader.nextIndex peer ∧ r.keepGoing = true ∧
          r.follower.logEntries = follower.logEntries ∧
            r.leader.logEntries = leader.logEntries ∧
              r.leader.nextIndex peer = leader.nextIndex peer - 1 ∧
                Backtracking r.leader r.follower peer) ∨
        (r.reply.success = true ∧ r.keepGoing = false ∧
          Merged follower.logEntries leader.logEntries r.follower.logEntries ∧
            r.leader.matchIndex peer = leader.logEntries.length ∧
              r.leader.nextIndex peer = leader.logEntries.length + 1)) := by
  obtain ⟨args, hsent, hprev, hlast, hterm, hsnap⟩ := h.request
  obtain ⟨r, hreq⟩ := Option.isSome_iff_exists.mp
    (hsnap.receiveRequest_isSome h.sendable h.indexed h.entry_lt follower)
  have hr := hreq
  rw [hsnap.receiveRequest_eq h.sendable] at hr
  have hle : follower.metadata.currentTerm ≤ args.received.term := h.term_le.trans hterm.ge
  obtain ⟨hreply, hcurrent⟩ := Server.handleAppendEntries_currentTerm hr hle
  replace hreply : r.1.term = leader.metadata.currentTerm := hreply.trans hterm
  have hround := leader.replicationRound_eq peer hreq (hreply ▸ h.term_lt)
  -- the leader stays in its term whatever the answer
  have hnot : ¬ leader.metadata.currentTerm < r.1.term := by rw [hreply]; exact lt_irrefl _
  have hsame : ¬ (leader.role ≠ .leader ∨ leader.metadata.currentTerm ≠ args.term) := by
    simp [h.role, hterm]
  refine ⟨args, _, hsent, hround, rfl, ?_⟩
  dsimp only [Server.keepGoing]
  rw [if_neg hnot, if_neg hsame]
  rcases Server.handleAppendEntries_cases hr with
    ⟨hfail, hlog, -⟩ | ⟨hsucc, -, hprevm, s', changed, hrecon, -, heq⟩
  · have hnext := h.one_lt_of_refused hprev hsnap hle hr hfail
    have hleader := Server.handleAppendEntriesReply_refused h.role hreply.le hterm hfail hnext
    left
    rw [hfail, if_neg (by simp)]
    exact ⟨rfl, hnext, decide_eq_true hnext, hlog, by rw [hleader]; rfl,
      h.back hnext hleader hlog (by rw [hcurrent]; exact hterm.le)⟩
  · have hleader := Server.handleAppendEntriesReply_accepted peer h.role hreply.le hterm hsucc
    obtain ⟨hmatchIndex, hnextIndex⟩ := (leader.reached peer).withCredit_indices peer
      (hlast ▸ h.sendable.length_lt) (h.matchIndex.trans_le (Nat.zero_le _))
    obtain ⟨es, hc⟩ := s'.followCommit_commits args.received
    have hpart := hsnap.part
    have hmerged : Merged follower.logEntries leader.logEntries r.2.logEntries := by
      refine ⟨args.prevLogIndex, changed, Server.take_eq_of_prevMatches h.matching hpart.prev_le
        hpart.prev_term hprevm, ?_⟩
      have hentries := hpart.entries
      rw [hlast, List.take_length] at hentries
      rw [heq, hc.logEntries, ← hrecon, ← hentries]
      rfl
    right
    rw [if_pos hsucc, hleader, hnextIndex, hmatchIndex, hlast]
    exact ⟨hsucc, decide_eq_false (by omega), hmerged, rfl, rfl⟩

/-! ## The loop -/

/-- **The loop ends.**  With `nextIndex` turns of fuel it runs to its end: every turn but the last
is a refusal that leaves the log of the peer alone. -/
theorem rounds : ∃ rs last, Server.replicationRounds peer (leader.nextIndex peer) leader follower =
      some (rs ++ [last]) ∧ (rs ++ [last]).length ≤ leader.nextIndex peer ∧
    (∀ r ∈ rs, r.reply.success = false ∧ 1 < r.nextIndex ∧
      r.follower.logEntries = follower.logEntries) ∧
    last.reply.success = true ∧
      Merged follower.logEntries leader.logEntries last.follower.logEntries ∧
        last.leader.matchIndex peer = leader.logEntries.length ∧
          last.leader.nextIndex peer = leader.logEntries.length + 1 := by
  obtain ⟨n, hn⟩ := Nat.exists_eq_add_of_le' h.pos
  rw [hn]
  induction n generalizing leader follower with
  | zero =>
    obtain ⟨args, r, hsent, hr, -, ⟨-, hlt, -⟩ | ⟨hsucc, hstop, hlog, hmatch, hnext⟩⟩ := h.round
    · omega
    · refine ⟨[], r, ?_, le_rfl, by simp, hsucc, hlog, hmatch, hnext⟩
      simp only [Server.replicationRounds, h.running, hsent, hr, hstop]
      rfl
  | succ n ih =>
    obtain ⟨args, r, hsent, hr, hbefore, ⟨hfail, hlt, hgo, hlogf, hlogl, hnext, h'⟩ |
      ⟨hsucc, hstop, hlog, hmatch, hnext⟩⟩ := h.round
    · obtain ⟨rs, last, hrs, hlen, hrefused, hlast⟩ := ih h' (by omega)
      rw [hlogf, hlogl] at hlast
      refine ⟨r :: rs, last, ?_, ?_, ?_, hlast⟩
      · rw [Server.replicationRounds]
        simp only [h.running, hsent, hr, hgo, hrs]
        rfl
      · simp only [List.cons_append, List.length_cons] at hlen ⊢
        omega
      · intro x hx
        rcases List.mem_cons.mp hx with rfl | hx
        · exact ⟨hfail, hbefore ▸ hlt, hlogf⟩
        · exact hlogf ▸ hrefused x hx
    · refine ⟨[], r, ?_, Nat.le_add_left 1 _, by simp, hsucc, hlog, hmatch, hnext⟩
      rw [Server.replicationRounds]
      simp only [h.running, hsent, hr, hstop]
      rfl

end Backtracking

/-- The loop ends with `last` after some other turns `rs`.  There are at most `nextIndex` turns,
none of them fails at `nextIndex = 1`, and the peer gets full credit. -/
structure Concludes (leader follower : Server) (peer : ℕ) (rs : List Round) (last : Round) :
    Prop where
  run : Server.replicationRounds peer (leader.nextIndex peer) leader follower =
    some (rs ++ [last])
  length_le : (rs ++ [last]).length ≤ leader.nextIndex peer
  refused : ∀ r ∈ rs ++ [last], r.reply.success = false → 1 < r.nextIndex
  matchIndex : last.leader.matchIndex peer = leader.logEntries.length
  nextIndex : last.leader.nextIndex peer = leader.logEntries.length + 1

/-- **Backtracking converges**: no turn removes an entry of the follower that agrees with the
leader's, and in the end the follower has the whole log of the leader. -/
def Converges (leader follower : Server) (peer : ℕ) : Prop :=
  ∃ rs last, Concludes leader follower peer rs last ∧
    (∀ r ∈ rs ++ [last], ∀ (k : ℕ) (e : LogEntry), follower.logEntries[k]? = some e →
      leader.logEntries[k]? = some e → r.follower.logEntries[k]? = some e) ∧
    last.follower.logEntries.take leader.logEntries.length = leader.logEntries

/-- What does not fit must have been there before. -/
theorem Backtracking.held_of_converges {leader follower : Server} {peer : ℕ}
    (h : Backtracking leader follower peer) (hconv : Converges leader follower peer) {k : ℕ}
    {e : LogEntry} (hk : leader.logEntries[k]? = some e) (hbad : ¬ e.WellFormed) :
    follower.logEntries[k]? = some e := by
  obtain ⟨rs', last', hends, -, htake⟩ := hconv
  obtain ⟨rs, last, hrs, -, -, -, hmerged, -⟩ := h.rounds
  have hsame : rs ++ [last] = rs' ++ [last'] := Option.some.inj (hrs.symm.trans hends.run)
  obtain rfl : last = last' := by simpa using (List.append_inj' hsame rfl).2
  refine hmerged.held ?_ hbad
  have hlt := (List.getElem?_eq_some_iff.mp hk).1
  rw [← List.getElem?_take_of_lt hlt, htake, hk]

/-- **When backtracking converges.**  Let the logs of a leader and of a follower match, and let the
follower be in no later term.  From any `nextIndex` up to the end of the leader's log the loop ends
with full credit for the follower; and the follower then has the leader's log exactly if it held
before every entry of it that does not fit its length fields. -/
theorem replicationRounds_converge_iff {leader follower : Server} {peer : ℕ}
    (h : Backtracking leader follower peer) :
    (∃ rs last, Concludes leader follower peer rs last) ∧
      (Converges leader follower peer ↔
        ∀ (k : ℕ) (e : LogEntry), leader.logEntries[k]? = some e → ¬ e.WellFormed →
          follower.logEntries[k]? = some e) := by
  obtain ⟨rs, last, hrs, hlen, hrefused, hsucc, hmerged, hmatch, hnext⟩ := h.rounds
  have hends : Concludes leader follower peer rs last := by
    refine ⟨hrs, hlen, fun r hr hfail => ?_, hmatch, hnext⟩
    rcases List.mem_append.mp hr with hr | hr
    · exact (hrefused r hr).2.1
    · rw [List.mem_singleton.mp hr, hsucc] at hfail
      exact absurd hfail (by simp)
  refine ⟨⟨rs, last, hends⟩, fun hconv k e hk hbad => h.held_of_converges hconv hk hbad,
    fun hheld => ?_⟩
  have hlog := hmerged.eq_logAfter h.indexed h.matching
    (fun e he => ⟨h.entry_lt e he, h.indexed.index_lt h.sendable e he⟩) hheld
  refine ⟨rs, last, hends, fun r hr k e hk hk' => ?_, ?_⟩
  · rcases List.mem_append.mp hr with hr | hr
    · rw [(hrefused r hr).2.2, hk]
    · rw [List.mem_singleton.mp hr, hlog, logAfter, List.take_length]
      split
      · exact hk
      · exact hk'
  · rw [hlog, take_logAfter le_rfl, List.take_length]

/-- A follower of term 1 whose log diverges after one entry and is longer than the leader's. -/
def longFollower : Server :=
  { Server.new 2 [1] with
    metadata := ⟨1, 0, 0, 0⟩
    logEntries := [putEntry 1 1 1, putEntry 1 2 7, putEntry 1 3 8, putEntry 1 4 9] }

/-- A leader of term 2 with three entries that starts from the end of its log. -/
def startingLeader : Server :=
  { Server.new 1 [2] with
    role := .leader
    metadata := ⟨2, 1, 0, 0⟩
    logEntries := growingLog
    nextIndex := fun _ => 4
    running := true }

theorem backtracking_startingLeader : Backtracking startingLeader longFollower 2 where
  role := rfl
  running := rfl
  indexed := indexed_growingLog
  matching := by
    rintro (_ | _ | _ | k) e e' hk hk' hterm
    · rfl
    · rw [← Option.some.inj hk, ← Option.some.inj hk'] at hterm
      exact absurd hterm (by decide)
    · rw [← Option.some.inj hk, ← Option.some.inj hk'] at hterm
      exact absurd hterm (by decide)
    · exact absurd hk' (by simp [startingLeader, growingLog])
  term_le := Nat.le_succ 1
  matchIndex := rfl
  pos := by decide
  le := by decide
  entry_lt e he := (wellFormed_growingLog e he).term_lt
  term_lt := by decide
  nodeId_lt := by decide
  commit_lt := by decide
  sendable := sendable_growingLog

/-- The follower gives up its tail. -/
theorem replicationRounds_converge_diverging : Converges startingLeader longFollower 2 :=
  (replicationRounds_converge_iff backtracking_startingLeader).2.mpr fun _ e hk hbad =>
    absurd (wellFormed_growingLog e (List.mem_of_getElem? hk)) hbad

/-- A leader of term 1 with the log `lossyLog`, about to send it as a whole. -/
def lossyLeader (rest : Bytes) : Server :=
  { Server.new 1 [2] with
    role := .leader
    metadata := ⟨1, 1, 0, 0⟩
    logEntries := lossyLog rest
    nextIndex := fun _ => 1
    running := true }

theorem backtracking_lossyLeader {rest : Bytes} (h : rest.length = 65532) :
    Backtracking (lossyLeader rest) (Server.new 2 [1]) 2 where
  role := rfl
  running := rfl
  indexed := indexed_lossyLog rest
  matching := Matching.nil _
  term_le := Nat.zero_le 1
  matchIndex := rfl
  pos := le_rfl
  le := Nat.le_add_left 1 _
  entry_lt e he := term_lt_of_mem_lossyLog he
  term_lt := Nat.one_lt_two_pow (by decide)
  nodeId_lt := Nat.one_lt_two_pow (by decide)
  commit_lt := Nat.two_pow_pos 64
  sendable := sendable_lossyLog h

/-- **The loop ends with a credit that is not deserved** when a client has set a key of 65536 bytes
and the follower has an empty log. -/
theorem replicationRounds_diverge :
    Backtracking (lossyLeader (List.replicate 65532 97)) (Server.new 2 [1]) 2 ∧
      ¬ Converges (lossyLeader (List.replicate 65532 97)) (Server.new 2 [1]) 2 := by
  have hdiverges : ∀ rest : Bytes, rest.length = 65532 →
      ¬ Converges (lossyLeader rest) (Server.new 2 [1]) 2 := by
    intro rest hrest hconv
    have hbad : ¬ (cutEntry rest).WellFormed := by
      intro hwf
      have hlt : rest.length + 4 < 65536 := hwf.command.key_lt
      omega
    have hheld := (backtracking_lossyLeader hrest).held_of_converges hconv (k := 1) rfl hbad
    exact absurd hheld (by simp [Server.new])
  exact ⟨backtracking_lossyLeader List.length_replicate, hdiverges _ List.length_replicate⟩

end RaftConsensus
