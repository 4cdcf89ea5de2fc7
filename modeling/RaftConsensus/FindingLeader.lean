import RaftConsensus.Numerals
import RaftConsensus.ClientThread

/-!
# How a client finds the leader

`execute` starts at whatever server the client is at.  Servers cannot be dialled, do not answer, do
not know a leader, name one, or are leaders of old terms that wait in vain; the client goes on to
the next one in its list, or to the one that is named.

As long as one server leads, and whoever names a leader names that one, no attempt takes the client
past it.  So the client is there after fewer attempts than there are servers, gets the answer, and
stays.

* `Encounter`: what an attempt meets while server `l` of the list leads.
* `execute_finds_leader`: the call returns the answer of the leader.
-/

namespace RaftConsensus

/-! ## What the servers send -/

/-- The command that is proposed does not begin with a backslash. -/
theorem isLocal_of_propose {line : Bytes} {request : Request}
    (h : branch (line ++ [10]) = .propose request) : RaftClient.isLocal line = false := by
  rw [Bool.eq_false_iff]
  intro hlocal
  obtain ⟨rest, rfl⟩ : ∃ rest, line = 92 :: rest := by
    cases line with
    | nil => exact absurd hlocal (by decide)
    | cons b rest => exact ⟨rest, by rw [Option.some.inj (of_decide_eq_true hlocal)]⟩
  have htrim : ∃ cmd, trim (92 :: rest ++ [10]) = 92 :: cmd := by
    rw [trim_append_newline]
    have hpre : trim (92 :: rest) <+: 92 :: rest := List.rdropWhile_prefix _ _
    have hne : trim (92 :: rest) ≠ [] := by
      rw [trim, ne_eq, List.rdropWhile_eq_nil_iff]
      exact fun hall => absurd (hall 92 List.mem_cons_self) (by decide)
    obtain ⟨b, cmd, hcmd⟩ := List.exists_cons_of_ne_nil hne
    rw [hcmd] at hpre
    exact ⟨cmd, by rw [hcmd, (List.cons_prefix_cons.mp hpre).1]⟩
  obtain ⟨cmd, htrim⟩ := htrim
  have hword : ∃ w, (extract (92 :: cmd)).1 = 92 :: w := by
    rw [extract, List.dropWhile_cons_of_neg (by decide)]
    dsimp only
    rw [List.takeWhile_cons_of_pos (by decide)]
    exact ⟨_, rfl⟩
  obtain ⟨w, hword⟩ := hword
  have hup : ∀ cmd : Bytes, cmd.head? ≠ some 92 → (92 :: w).map toupper ≠ cmd := by
    rintro cmd hhead rfl
    exact hhead rfl
  unfold branch at h
  rw [htrim] at h
  dsimp only at h
  rw [if_neg (by simp), hword, if_neg (hup _ (by decide +kernel)),
    if_neg (hup _ (by decide +kernel)), if_neg (hup _ (by decide +kernel))] at h
  repeat' split at h
  all_goals exact absurd h (by simp)

namespace Moment

variable {m : Moment} {line : Bytes} {request : Request} {leader : ℕ}

theorem trim_of_propose (h : branch (line ++ [10]) = .propose request) : trim line ≠ [] := by
  have hway := branch_way (line ++ [10])
  rw [h] at hway
  cases hway with
  | propose _ hne _ => rwa [trim_append_newline] at hne

/-- What a server that leads returns for a proposal. -/
theorem reply_of_leads (h : m.Leads) (hline : branch (line ++ [10]) = .propose request) :
    m.reply line =
      (m.later.answer ⟨request, m.server.nextLogIndex, m.server.metadata.currentTerm⟩).text := by
  rw [reply, handleCommand, hline]
  dsimp only
  rw [Server.propose, if_neg (not_not.mpr h.leader)]
  exact (isText_answer _).outgoing

/-- The value that is read does not begin like a redirect. -/
def Plain (m : Moment) : Request → Prop
  | .get key => ∀ v, m.later.stateMachine.store.lookup key = some v →
      ¬ ascii "NOT_LEADER" <+: v ∧ ¬ ascii "UNKNOWN_LEADER" <+: v
  | _ => True

/-- A server that cannot answer: it does not lead, or it loses its office while it waits, or it
waits in vain; and when it names a leader, it names `leader`. -/
structure Yields (m : Moment) (leader : ℕ) : Prop where
  running : m.later.running = true
  stuck : m.server.role = .leader →
    m.later.role ≠ .leader ∨ m.later.metadata.commitIndex < m.server.nextLogIndex
  names : ∀ s ∈ [m.server, m.later], s.role ≠ .leader →
    s.currentLeaderId = 0 ∨ s.currentLeaderId = leader

/-- What such a server sends. -/
theorem reply_of_yields (h : m.Yields leader) (hline : branch (line ++ [10]) = .propose request) :
    ∃ a ∈ [Answer.unknownLeader, .notLeader leader, .commitTimeout], m.reply line = a.text := by
  have hnames : ∀ s ∈ [m.server, m.later], s.role ≠ .leader →
      s.notLeaderMsg ∈ [Answer.unknownLeader, .notLeader leader, .commitTimeout] := by
    intro s hs hrole
    rw [Server.notLeaderMsg]
    split
    · simp
    · next hne => simp [(h.names s hs hrole).resolve_left hne]
  rw [reply, handleCommand, hline]
  dsimp only
  by_cases hrole : m.server.role = .leader
  · rw [Server.propose, if_neg (not_not.mpr hrole)]
    refine ⟨_, ?_, (isText_answer _).outgoing⟩
    rw [Server.answer, h.running, if_neg (by simp),
      if_pos ((h.stuck hrole).elim Or.inr Or.inl)]
    split
    · next hlater => exact hnames m.later (by simp) hlater
    · simp
  · rw [Server.propose, if_pos hrole]
    exact ⟨_, hnames m.server (by simp) hrole, (isText_answer _).outgoing⟩

/-- The answer of the leader is final. -/
theorem retryable_of_leads (h : m.Leads) (hplain : m.Plain request)
    (hline : branch (line ++ [10]) = .propose request) :
    RaftClient.retryable (m.reply line) = false := by
  have hok (index term : ℕ) : RaftClient.retryable (Answer.ok index term).text = false := by
    have htext : (Answer.ok index term).text =
        ascii "OK (committed at index " ++
          ascii (toString index ++ " in term " ++ toString term ++ ")\n") := by
      rw [← ascii_append, Answer.text]
      simp only [String.append_assoc]
    have hfirst : ascii "OK (committed at index " = 79 :: ascii "K (committed at index " := by
      decide +kernel
    have hother : ∀ word : Bytes, word ≠ [] → word.head? ≠ some 79 →
        ∀ rest, word.isPrefixOf (79 :: rest) = false := by
      intro word hne hhead rest
      cases word with
      | nil => exact absurd rfl hne
      | cons b word =>
        rw [List.isPrefixOf_cons_cons, Bool.and_eq_false_iff]
        exact Or.inl (beq_eq_false_iff_ne.mpr fun heq => hhead (by rw [heq]; rfl))
    rw [RaftClient.retryable, htext, hfirst, List.cons_append,
      hother _ (by decide +kernel) (by decide +kernel),
      hother _ (by decide +kernel) (by decide +kernel),
      hother _ (by decide +kernel) (by decide +kernel)]
    rfl
  have hwait : ¬ (m.later.metadata.commitIndex < m.server.nextLogIndex ∨
      m.later.role ≠ .leader) := by
    rw [not_or, not_lt, not_not]
    exact ⟨h.committed, h.still⟩
  rw [reply_of_leads h hline, Server.answer, h.running, if_neg (by simp), if_neg hwait]
  cases request with
  | put key value => exact hok _ _
  | delete key => exact hok _ _
  | get key =>
    dsimp only
    cases hv : m.later.stateMachine.store.lookup key with
    | none =>
      rw [KVStateMachine.has, hv, if_neg (by simp)]
      decide +kernel
    | some v =>
      obtain ⟨hnot, hunknown⟩ := hplain v hv
      rw [KVStateMachine.has, hv, Option.isSome_some, if_pos rfl, KVStateMachine.get, hv,
        Answer.text, ascii_newline]
      exact (RaftClient.retryable_word (m.accepted.isWord hv).2).trans
        (Bool.or_eq_false_iff.mpr ⟨Bool.eq_false_iff.mpr (List.isPrefixOf_iff_prefix.not.mpr hnot),
          Bool.eq_false_iff.mpr (List.isPrefixOf_iff_prefix.not.mpr hunknown)⟩)

end Moment

/-! ## Where an attempt takes the client -/

namespace RaftClient

variable {c c' : RaftClient} {servers : List ℕ} {d l leader : ℕ}

/-- The client is `d` places before server `l` of its list. -/
structure Before (servers : List ℕ) (d l : ℕ) (c : RaftClient) : Prop where
  list : c.servers = servers
  current : c.current < servers.length
  place : (c.current + d) % servers.length = l

/-- The next place. -/
theorem Before.rotate (h : c.Before servers (d + 1) l) : c.closeConn.rotate.Before servers d l := by
  refine ⟨h.list, ?_, ?_⟩
  · rw [RaftClient.rotate, closeConn, h.list]
    exact Nat.mod_lt _ (Nat.zero_lt_of_lt h.current)
  · rw [RaftClient.rotate, closeConn, h.list, Nat.mod_add_mod, Nat.add_right_comm]
    exact h.place

/-- The dials stop at server `l` if not before. -/
theorem Before.dialLoop (h : c.Before servers d l) {dials : List Bool}
    (hdial : dials[d]? = some true) {tries : ℕ} (htries : d < tries) :
    ∃ j ≤ d, dialLoop tries dials c =
      (true, { c with current := (c.current + j) % servers.length, connected := true }) := by
  induction tries generalizing c d dials with
  | zero => exact absurd htries (Nat.not_lt_zero d)
  | succ tries ih =>
    rw [RaftClient.dialLoop]
    by_cases hhead : dials.headD false = true
    · rw [if_pos hhead]
      exact ⟨0, Nat.zero_le d, by rw [Nat.add_zero, Nat.mod_eq_of_lt h.current]⟩
    · rw [if_neg hhead]
      cases d with
      | zero =>
        cases dials with
        | nil => exact absurd hdial (by simp)
        | cons b dials => exact absurd (Option.some.inj hdial) hhead
      | succ d =>
        obtain ⟨j, hj, heq⟩ := ih h.rotate (by rw [List.getElem?_tail]; exact hdial) (by omega)
        refine ⟨j + 1, by omega, heq.trans ?_⟩
        rw [RaftClient.rotate, closeConn, h.list]
        simp only [Nat.mod_add_mod, Nat.add_assoc, Nat.add_comm 1]

/-- The client connects to server `l` or to one before it. -/
theorem Before.ensureConnected (h : c.Before servers d l) (hd : d < servers.length)
    {dials : List Bool} (hdial : dials[d]? = some true) :
    ∃ j ≤ d, c.ensureConnected dials =
      (true, { c with current := (c.current + j) % servers.length, connected := true }) := by
  rw [RaftClient.ensureConnected]
  by_cases hconn : c.connected = true
  · rw [if_pos hconn]
    exact ⟨0, Nat.zero_le d, by rw [Nat.add_zero, Nat.mod_eq_of_lt h.current, ← hconn]⟩
  · rw [if_neg hconn]
    exact h.dialLoop hdial (by rw [h.list]; exact hd)

/-- The answers of servers that cannot answer are not final, and they take the client to the next
place or to server `l`. -/
theorem afterAnswer_of_mem {a : Answer}
    (ha : a ∈ [Answer.unknownLeader, .notLeader leader, .commitTimeout]) (hleader : leader < 2 ^ 64)
    (hindex : ∀ t ∈ c.indexForId leader, t = l) :
    retryable a.text = true ∧ (c.afterAnswer a.text = c.closeConn.rotate ∨
      c.afterAnswer a.text = { c.closeConn with current := l }) := by
  rcases List.mem_cons.mp ha with rfl | ha
  · refine ⟨by decide +kernel, Or.inl ?_⟩
    rw [afterAnswer, if_neg (by decide +kernel)]
  rcases List.mem_cons.mp ha with rfl | ha
  · have hfront : ascii "NOT_LEADER leader=" = ascii "NOT_LEADER leader" ++ [61] := by
      decide +kernel
    have htext : (Answer.notLeader leader).text =
        ascii "NOT_LEADER leader" ++ 61 :: (ascii (toString leader) ++ [10]) := by
      rw [Answer.text, ascii_append, ascii_append, ascii_newline, hfront, List.append_assoc,
        List.append_assoc, List.singleton_append]
    have hprefix : (ascii "NOT_LEADER").isPrefixOf (Answer.notLeader leader).text = true := by
      rw [htext, List.isPrefixOf_iff_prefix]
      have hpre : ascii "NOT_LEADER" <+: ascii "NOT_LEADER leader" :=
        List.isPrefixOf_iff_prefix.mp (by decide +kernel)
      exact hpre.trans (List.prefix_append _ _)
    have hid : strtoull ((Answer.notLeader leader).text.drop
        ((ascii "NOT_LEADER leader").length + 1)) = leader := by
      rw [htext, ← List.singleton_append, ← List.append_assoc, List.drop_left' (by simp)]
      exact strtoull_number hleader (by simp)
    refine ⟨by rw [retryable, hprefix, Bool.true_or, Bool.true_or], ?_⟩
    rw [afterAnswer, if_pos hprefix, htext, idxOf?_mark (by decide +kernel), ← htext]
    dsimp only
    rw [hid]
    cases ht : c.indexForId leader with
    | none => exact Or.inl rfl
    | some t =>
      rw [hindex t ht]
      exact Or.inr rfl
  · obtain rfl := List.mem_singleton.mp ha
    refine ⟨by decide +kernel, Or.inl ?_⟩
    rw [afterAnswer, if_neg (by decide +kernel)]

/-! ## A call -/

/-- The attempts of a call of `execute`: number `k` is made by the client `c'`. -/
inductive Makes (line : Bytes) (attempts : ℕ → Attempt) (c : RaftClient) : ℕ → RaftClient → Prop
  | first : Makes line attempts c 0 c
  | failed {k : ℕ} {c' c'' : RaftClient} (h : Makes line attempts c k c')
      (hdial : c'.ensureConnected (attempts k).dials = (true, c''))
      (hsend : sendOnce (attempts k).sent (attempts k).pieces (isLocal line) = none) :
      Makes line attempts c (k + 1) c''.afterFailure
  | retried {k : ℕ} {c' c'' : RaftClient} {resp : Bytes} (h : Makes line attempts c k c')
      (hdial : c'.ensureConnected (attempts k).dials = (true, c''))
      (hsend : sendOnce (attempts k).sent (attempts k).pieces (isLocal line) = some resp)
      (hlocal : isLocal line = false) (hresp : retryable resp = true) :
      Makes line attempts c (k + 1) (c''.afterAnswer resp)

/-- **What an attempt meets while server `l` leads.**  That server can be dialled and answers, at
the moment `m`.  Any other one that the client gets to does not answer, or cannot, and names no
leader but `leader`. -/
structure Encounter (l leader : ℕ) (request : Request) (line : Bytes) (c : RaftClient) (a : Attempt)
    (m : Moment) : Prop where
  dialled : ∀ d < c.servers.length, (c.current + d) % c.servers.length = l → a.dials[d]? = some true
  answered : (c.ensureConnected a.dials).2.current = l → m.Leads ∧ m.Plain request ∧
    a.sent = true ∧ (∀ p ∈ a.pieces, p ≠ []) ∧ a.pieces.flatten = m.reply line
  elsewhere : (c.ensureConnected a.dials).2.current ≠ l → sendOnce a.sent a.pieces false = none ∨
    m.Yields leader ∧ sendOnce a.sent a.pieces false = some (m.reply line)

variable {line : Bytes} {request : Request} {attempts : ℕ → Attempt} {moments : ℕ → Moment} {k : ℕ}

/-- **An attempt is answered by the leader, or it takes the client closer to it.** -/
theorem Encounter.turn (hline : branch (line ++ [10]) = .propose request)
    (hleader : leader < 2 ^ 64)
    (hindex : ∀ t ∈ (⟨servers, 0, false⟩ : RaftClient).indexForId leader, t = l)
    (h : Encounter l leader request line c' (attempts k) (moments k))
    (hmakes : Makes line attempts c k c') (hbefore : c'.Before servers d l)
    (hd : d < servers.length) (tries : ℕ) :
    ((moments k).Leads ∧ executeLoop line (tries + 1) (fun n => attempts (k + n)) c' =
        ((moments k).reply line, ⟨servers, l, true⟩)) ∨
      ∃ d' < d, ∃ c'', Makes line attempts c (k + 1) c'' ∧ c''.Before servers d' l ∧
        executeLoop line (tries + 1) (fun n => attempts (k + n)) c' =
          executeLoop line tries (fun n => attempts (k + 1 + n)) c'' := by
  have hlocal := isLocal_of_propose hline
  obtain ⟨j, hj, hdial⟩ := hbefore.ensureConnected hd
    (h.dialled d (by rw [hbefore.list]; exact hd) (by rw [hbefore.list]; exact hbefore.place))
  have hanswered := h.answered
  have helsewhere := h.elsewhere
  rw [hdial] at hanswered helsewhere
  generalize hc : RaftClient.mk c'.servers ((c'.current + j) % servers.length) true = there at *
  dsimp only at hanswered helsewhere
  have hthere : there.Before servers (d - j) l := by
    rw [← hc]
    refine ⟨hbefore.list, Nat.mod_lt _ (Nat.zero_lt_of_lt hd), ?_⟩
    rw [Nat.mod_add_mod, Nat.add_assoc, Nat.add_sub_cancel' hj]
    exact hbefore.place
  have hshift : (fun n => attempts (k + (n + 1))) = fun n => attempts (k + 1 + n) := by
    funext n
    rw [Nat.add_assoc, Nat.add_comm 1 n]
  rw [executeLoop, Nat.add_zero, hdial]
  dsimp only
  rw [hlocal, hshift]
  by_cases hat : there.current = l
  · -- the client is at the leader
    left
    obtain ⟨hleads, hplain, hsent, hne, hwhole⟩ := hanswered hat
    obtain ⟨text, htext, hreply⟩ :=
      ((moments k).isText_reply (Moment.trim_of_propose hline)).2 hlocal
    have hread : sendOnce (attempts k).sent (attempts k).pieces false =
        some ((moments k).reply line) := by
      rw [sendOnce, hsent, hreply]
      exact readReply_line hne htext (by rw [List.nil_append, hwhole, hreply]) List.not_mem_nil
    rw [hread]
    dsimp only
    rw [if_neg (by simp), Moment.retryable_of_leads hleads hplain hline, if_neg (by simp), ← hat]
    refine ⟨hleads, ?_⟩
    rw [← hc, ← hbefore.list]
  · right
    have hlt : j < d := by
      refine Nat.lt_of_le_of_ne hj ?_
      rintro rfl
      have hplace := hthere.place
      rw [Nat.sub_self, Nat.add_zero, Nat.mod_eq_of_lt hthere.current] at hplace
      exact hat hplace
    have hnext : there.closeConn.rotate.Before servers (d - j - 1) l :=
      Before.rotate (by rwa [Nat.sub_add_cancel (Nat.sub_pos_of_lt hlt)])
    rcases helsewhere hat with hnone | ⟨hyields, hsome⟩
    · rw [hnone]
      exact ⟨d - j - 1, by omega, there.afterFailure,
        .failed hmakes hdial (by rw [hlocal]; exact hnone), hnext, rfl⟩
    · obtain ⟨a, ha, hreply⟩ := Moment.reply_of_yields hyields hline
      have hindex' : ∀ t ∈ there.indexForId leader, t = l := by
        intro t ht
        refine hindex t ?_
        rw [indexForId] at ht ⊢
        rwa [hthere.list] at ht
      obtain ⟨hretry, hafter⟩ := afterAnswer_of_mem ha hleader hindex'
      rw [← hreply] at hretry hafter
      have hmakes' := Makes.retried hmakes hdial (by rw [hlocal]; exact hsome) hlocal hretry
      rw [hsome]
      dsimp only
      rw [if_neg (by simp), if_pos hretry]
      rcases hafter with hafter | hafter
      · exact ⟨d - j - 1, by omega, _, hmakes', by rw [hafter]; exact hnext, rfl⟩
      · refine ⟨0, by omega, _, hmakes', ?_, rfl⟩
        rw [hafter]
        have hl : l < servers.length := by
          rw [← hbefore.place]
          exact Nat.mod_lt _ (Nat.zero_lt_of_lt hd)
        exact ⟨hthere.list, hl, by rw [Nat.add_zero, Nat.mod_eq_of_lt hl]⟩

/-- The loop, from any of its attempts on. -/
theorem executeLoop_finds_leader (hline : branch (line ++ [10]) = .propose request)
    (hleader : leader < 2 ^ 64)
    (hindex : ∀ t ∈ (⟨servers, 0, false⟩ : RaftClient).indexForId leader, t = l)
    (hmeets : ∀ k c', Makes line attempts c k c' →
      Encounter l leader request line c' (attempts k) (moments k))
    (hd : d < servers.length) {tries : ℕ} (htries : d < tries) (hmakes : Makes line attempts c k c')
    (hbefore : c'.Before servers d l) :
    ∃ i ≤ d, (moments (k + i)).Leads ∧ executeLoop line tries (fun n => attempts (k + n)) c' =
      ((moments (k + i)).reply line, ⟨servers, l, true⟩) := by
  induction d using Nat.strong_induction_on generalizing k c' tries with
  | h d ih =>
    obtain ⟨tries, rfl⟩ := Nat.exists_eq_add_of_lt htries
    rcases (hmeets k c' hmakes).turn hline hleader hindex hmakes hbefore hd (d + tries) with
      ⟨hleads, heq⟩ | ⟨d', hlt, c'', hmakes', hbefore', heq⟩
    · exact ⟨0, Nat.zero_le d, hleads, heq⟩
    · have htries' : d' < d + tries := by omega
      obtain ⟨i, hi, hleads, heq'⟩ := ih d' hlt (hlt.trans hd) htries' hmakes' hbefore'
      have hk : k + 1 + i = k + (i + 1) := by omega
      rw [hk] at hleads heq'
      exact ⟨i + 1, by omega, hleads, heq.trans heq'⟩

/-- **A client finds the leader.**  As long as server `l` leads and answers, and nobody names
another one, a call is answered by it after at most as many attempts elsewhere as there are servers
before it, and leaves the client connected to it. -/
theorem execute_finds_leader (hline : branch (line ++ [10]) = .propose request)
    (hleader : leader < 2 ^ 64) (hindex : ∀ t ∈ c.indexForId leader, t = l)
    (hcurrent : c.current < c.servers.length) (hd : d < c.servers.length) (htries : d < maxTries)
    (hplace : (c.current + d) % c.servers.length = l)
    (hmeets : ∀ k c', Makes line attempts c k c' →
      Encounter l leader request line c' (attempts k) (moments k)) :
    ∃ k ≤ d, (moments k).Leads ∧
      c.execute line attempts =
        (((moments k).later.answer ⟨request, (moments k).server.nextLogIndex,
          (moments k).server.metadata.currentTerm⟩).text, ⟨c.servers, l, true⟩) := by
  have hindex' : ∀ t ∈ (⟨c.servers, 0, false⟩ : RaftClient).indexForId leader, t = l := by
    intro t ht
    rw [indexForId] at ht
    exact hindex t (by rw [indexForId]; exact ht)
  obtain ⟨k, hk, hleads, heq⟩ := executeLoop_finds_leader hline hleader hindex' hmeets hd htries
    .first ⟨rfl, hcurrent, hplace⟩
  rw [Nat.zero_add] at hleads heq
  refine ⟨k, hk, hleads, ?_⟩
  rw [execute, ← Moment.reply_of_leads hleads hline, ← heq]
  simp only [Nat.zero_add]

/-- A follower that has heard of a leader. -/
def following (leader : ℕ) : Moment where
  server := { Server.new 2 [1, 3] with currentLeaderId := leader, running := true }
  all := (Server.new 2 [1, 3]).stateMachine.pairs
  all_perm := List.Perm.refl _
  later := { Server.new 2 [1, 3] with currentLeaderId := leader, running := true }
  accepted := .empty

/-- Server 1 is down, and server 2 follows the leader. -/
def redirected : ℕ → Attempt
  | 0 => ⟨[false, true, true], true, [ascii "NOT_LEADER ", ascii "leader=3\n"]⟩
  | _ => ⟨[true], true, [ascii "v\n"]⟩

/-- When they are asked. -/
def redirectedAt : ℕ → Moment
  | 0 => following 3
  | _ => .reading (ascii "PUT k v\n")

/-- A client is sent on to the third server. -/
theorem execute_finds_leader_redirected : ∃ k ≤ 2, (redirectedAt k).Leads ∧
    (RaftClient.mk [1, 2, 3] 0 false).execute (getLine (ascii "k")) redirected =
      (((redirectedAt k).later.answer ⟨.get (ascii "k"), (redirectedAt k).server.nextLogIndex,
        (redirectedAt k).server.metadata.currentTerm⟩).text, ⟨[1, 2, 3], 2, true⟩) := by
  have hkey : IsWord (ascii "k") := ⟨by decide +kernel, by decide +kernel⟩
  have hleads : (Moment.reading (ascii "PUT k v\n")).Leads := ⟨rfl, rfl, rfl, by decide⟩
  have hplain : (Moment.reading (ascii "PUT k v\n")).Plain (.get (ascii "k")) := by
    intro v hv
    have hstored : (Moment.reading (ascii "PUT k v\n")).later.stateMachine.store.lookup
        (ascii "k") = some (ascii "v") := by decide +kernel
    obtain rfl := Option.some.inj (hstored.symm.trans hv)
    exact ⟨List.isPrefixOf_iff_prefix.not.mp (by decide +kernel),
      List.isPrefixOf_iff_prefix.not.mp (by decide +kernel)⟩
  have hfirst : sendOnce true [ascii "NOT_LEADER ", ascii "leader=3\n"] false =
      some (ascii "NOT_LEADER leader=3\n") := by decide +kernel
  have hsecond : sendOnce true [ascii "v\n"] false = some (ascii "v\n") := by decide +kernel
  have hone : ∀ c', Makes (getLine (ascii "k")) redirected ⟨[1, 2, 3], 0, false⟩ 1 c' →
      c' = ⟨[1, 2, 3], 2, false⟩ := by
    intro c' h
    cases h with
    | failed h _ hsend =>
      rw [isLocal_getLine] at hsend
      exact absurd (hfirst.symm.trans hsend) (by simp)
    | retried h hdial hsend =>
      cases h with
      | first =>
        rw [isLocal_getLine] at hsend
        obtain rfl := Option.some.inj (hfirst.symm.trans hsend)
        obtain rfl := (Prod.mk.inj hdial).2
        decide +kernel
  -- the second attempt is the last one
  have hlast : ∀ k c',
      ¬ Makes (getLine (ascii "k")) redirected ⟨[1, 2, 3], 0, false⟩ (k + 2) c' := by
    intro k
    induction k with
    | zero =>
      intro c' h
      cases h with
      | failed h _ hsend =>
        rw [isLocal_getLine] at hsend
        exact absurd (hsecond.symm.trans hsend) (by simp)
      | retried h _ hsend _ hresp =>
        rw [isLocal_getLine] at hsend
        obtain rfl := Option.some.inj (hsecond.symm.trans hsend)
        exact absurd hresp (by decide +kernel)
    | succ k ih =>
      intro c' h
      cases h with
      | failed h => exact ih _ h
      | retried h => exact ih _ h
  have hmeets : ∀ k c', Makes (getLine (ascii "k")) redirected ⟨[1, 2, 3], 0, false⟩ k c' →
      Encounter 2 3 (.get (ascii "k")) (getLine (ascii "k")) c' (redirected k)
        (redirectedAt k) := by
    intro k c' h
    match k with
    | 0 =>
      cases h with
      | first =>
        refine ⟨by decide, fun hat => absurd hat (by decide), fun _ => Or.inr ⟨?_, ?_⟩⟩
        · exact ⟨rfl, fun hrole => absurd hrole (by decide), by decide⟩
        · exact hfirst.trans (by decide +kernel)
    | 1 =>
      obtain rfl := hone c' h
      refine ⟨by decide, fun _ => ⟨hleads, hplain, rfl, by decide +kernel, by decide +kernel⟩,
        fun hat => absurd rfl hat⟩
    | k + 2 => exact absurd h (hlast k c')
  exact execute_finds_leader (branch_getLine hkey) (by decide) (by decide) (by decide) (by decide)
    (by decide) (by decide) hmeets

end RaftClient

end RaftConsensus
