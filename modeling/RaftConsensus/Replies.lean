import RaftConsensus.Clients
import RaftConsensus.Sockets

/-!
# What comes back for a line

The two ends of a connection read the same line by different rules.  The client forwards every line
that is not empty and not QUIT; the server drops a line of nothing but line ends, and `\r` is one of
them.  So a line gets its one reply exactly if it has something else in it (`getsReply_iff`).

The reply to a read is the value and a line end, and the client looks at how it begins.  A value that
begins like a redirect is taken for one, and the value `NOT_FOUND` reads like the answer for a key
that is not there; all others come through as they are (`readsValue_iff`).
-/

namespace RaftConsensus

/-! ## The shape of a reply -/

/-- What is sent ends with a line end. -/
def IsText (text : Bytes) : Prop := ∃ l, text = l ++ [10]

theorem IsLine.isText {text : Bytes} (h : IsLine text) : IsText text := by
  obtain ⟨l, -, heq⟩ := h
  exact ⟨l, heq⟩

theorem IsText.append (x : Bytes) {text : Bytes} (h : IsText text) : IsText (x ++ text) := by
  obtain ⟨l, rfl⟩ := h
  exact ⟨x ++ l, (List.append_assoc _ _ _).symm⟩

theorem IsText.flatMap {α : Type*} {text : Bytes} {f : α → Bytes} (h : IsText text) {as : List α}
    (hf : ∀ a ∈ as, IsText (f a)) : IsText (text ++ as.flatMap f) := by
  induction as generalizing text with
  | nil => rwa [List.flatMap_nil, List.append_nil]
  | cons a as ih =>
    rw [List.flatMap_cons, ← List.append_assoc]
    exact ih ((hf a List.mem_cons_self).append text) fun b hb => hf b (List.mem_cons_of_mem a hb)

/-- `QUIT` has no line end. -/
theorem IsText.ne_quit {text : Bytes} (h : IsText text) : text ≠ ascii "QUIT" := by
  intro heq
  obtain ⟨l, rfl⟩ := h
  have hlast : (ascii "QUIT").getLast? = some 84 := by decide +kernel
  rw [← heq, List.getLast?_concat] at hlast
  exact absurd hlast (by decide)

/-- A text is sent as it is. -/
theorem IsText.outgoing {text : Bytes} (h : IsText text) : Connection.outgoing text = text :=
  if_neg h.ne_quit

theorem isLine_answer {a : Answer} (h : ∀ v, a = .value v → 10 ∉ v) : IsLine a.text := by
  cases a with
  | unknownLeader => exact ⟨ascii "UNKNOWN_LEADER", by decide +kernel, by decide +kernel⟩
  | notLeader leader =>
    rw [Answer.text, ascii_append, ascii_append]
    refine isLine_append ?_
    rw [List.mem_append]
    rintro (hmem | hmem)
    · exact absurd hmem (by decide +kernel)
    · exact newline_notMem_number leader hmem
  | shuttingDown => exact ⟨ascii "ERR: shutting down", by decide +kernel, by decide +kernel⟩
  | commitTimeout =>
    exact ⟨ascii "ERR: commit timeout (no majority?)", by decide +kernel, by decide +kernel⟩
  | value v => exact isLine_append (h v rfl)
  | notFound => exact ⟨ascii "NOT_FOUND", by decide +kernel, by decide +kernel⟩
  | ok index term =>
    have hend : ascii ")\n" = ascii ")" ++ ascii "\n" := by decide +kernel
    rw [Answer.text, ascii_append, ascii_append, ascii_append, ascii_append, hend,
      ← List.append_assoc]
    refine isLine_append ?_
    simp only [List.mem_append, not_or]
    exact ⟨⟨⟨⟨by decide +kernel, newline_notMem_number index⟩, by decide +kernel⟩,
      newline_notMem_number term⟩, by decide +kernel⟩

theorem text_notFound : Answer.notFound.text = ascii "NOT_FOUND" ++ [10] := by decide +kernel

theorem isText_statusLine (label : String) (value : Bytes) : IsText (statusLine label value) := by
  rw [statusLine, ascii_newline]
  exact ⟨_, rfl⟩

theorem isText_handleStatus (s : Server) : IsText (handleStatus s) := by
  have hpeers : IsText (ascii "peers:\n") := ⟨ascii "peers:", by decide +kernel⟩
  by_cases hrole : s.role = .leader
  · rw [handleStatus, if_pos hrole]
    exact (hpeers.flatMap fun p _ => isText_statusLine _ _).append _
  · rw [handleStatus, if_neg hrole, List.append_nil]
    exact (isText_statusLine _ _).append _

theorem isText_handleDump (all : List (Bytes × Bytes)) : IsText (handleDump all) := by
  rw [handleDump, ascii_append, ascii_newline, ← List.append_assoc]
  exact ⟨_, rfl⟩

theorem isText_handleHash (all : List (Bytes × Bytes)) : IsText (handleHash all) := by
  rw [handleHash, ascii_append, ascii_newline]
  exact ⟨_, rfl⟩

/-! ## One reply for a line -/

/-- The server's side drops the line end that the client has added. -/
theorem trim_append_newline (line : Bytes) : trim (line ++ [10]) = trim line := by
  rw [trim, List.rdropWhile_concat_pos _ _ _ (by decide), trim]

/-- The commands about this node begin with a backslash. -/
theorem isLocal_of_trim {line cmd : Bytes} (h : trim line = 92 :: cmd) :
    RaftClient.isLocal line = true := by
  obtain ⟨rest, hline⟩ : trim line <+: line := List.rdropWhile_prefix _ _
  rw [RaftClient.isLocal, ← hline, h]
  simp

namespace Moment

variable {m : Moment} {line : Bytes}

/-- What the server sends back for a line. -/
def reply (m : Moment) (line : Bytes) : Bytes :=
  Connection.outgoing (handleCommand m (line ++ [10]))

/-- A value that is read is a word. -/
theorem isWord_of_answer {w : Waiter} {v : Bytes} (h : m.later.answer w = .value v) : IsWord v := by
  obtain ⟨-, -, heq⟩ := Server.answer_isResult (s := m.later) (w := w) (by rw [h]; rfl)
  rw [h] at heq
  split at heq
  · next key _ =>
    split at heq
    · next hhas =>
      obtain ⟨v', hv'⟩ := Option.isSome_iff_exists.mp hhas
      rw [KVStateMachine.get, hv'] at heq
      obtain rfl := Answer.value.inj heq
      exact (m.accepted.isWord hv').2
    · exact absurd heq (by simp)
  · exact absurd heq (by simp)

/-- What `handleCommand` returns for a line that is forwarded. -/
inductive Returns (line resp : Bytes) : Prop
  | nothing (h : trim line = []) (hresp : resp = [])
  | line (h : trim line ≠ []) (hresp : IsLine resp)
  | text (h : trim line ≠ []) (hlocal : RaftClient.isLocal line = true) (hresp : IsText resp)
  | quit (h : trim line ≠ []) (hresp : resp = ascii "QUIT")

theorem handleCommand_returns (m : Moment) (line : Bytes) :
    Returns line (handleCommand m (line ++ [10])) := by
  have hstatus : ascii "\\status" = 92 :: ascii "status" := by decide +kernel
  have hdump : ascii "\\dump" = 92 :: ascii "dump" := by decide +kernel
  have hhash : ascii "\\hash" = 92 :: ascii "hash" := by decide +kernel
  have hway := branch_way (line ++ [10])
  rw [handleCommand]
  generalize branch (line ++ [10]) = way at hway
  cases hway with
  | empty h => exact .nothing (trim_append_newline line ▸ h) rfl
  | error text h htext => exact .line (trim_append_newline line ▸ h) htext
  | propose request h hwords =>
    refine .line (trim_append_newline line ▸ h) ?_
    dsimp only
    split
    · rw [Server.notLeaderMsg]
      split
      · exact isLine_answer (by simp)
      · exact isLine_answer (by simp)
    · exact isLine_answer fun v hv => (isWord_of_answer hv).newline_notMem
  | status h =>
    rw [trim_append_newline, hstatus] at h
    exact .text (by simp [h]) (isLocal_of_trim h) (isText_handleStatus _)
  | dump h =>
    rw [trim_append_newline, hdump] at h
    exact .text (by simp [h]) (isLocal_of_trim h) (isText_handleDump _)
  | hash h =>
    rw [trim_append_newline, hhash] at h
    exact .text (by simp [h]) (isLocal_of_trim h) (isText_handleHash _)
  | quit h => exact .quit (trim_append_newline line ▸ h) rfl

/-- A line that is not all line ends gets a text back. -/
theorem isText_reply (m : Moment) (h : trim line ≠ []) :
    IsText (m.reply line) ∧ (RaftClient.isLocal line = false → IsLine (m.reply line)) := by
  rw [reply]
  cases handleCommand_returns m line with
  | nothing hnil => exact absurd hnil h
  | line _ hline =>
    rw [hline.isText.outgoing]
    exact ⟨hline.isText, fun _ => hline⟩
  | text _ hlocal htext =>
    rw [htext.outgoing]
    exact ⟨htext, fun hnot => absurd (hlocal.symm.trans hnot) (by simp)⟩
  | quit _ hresp =>
    have hbye : IsLine (Connection.outgoing (ascii "QUIT")) :=
      ⟨ascii "Goodbye", by decide +kernel, by decide +kernel⟩
    rw [hresp]
    exact ⟨hbye.isText, fun _ => hbye⟩

theorem reply_eq_nil (m : Moment) (h : trim line = []) : m.reply line = [] := by
  cases handleCommand_returns m line with
  | nothing _ hresp =>
    rw [reply, hresp]
    decide +kernel
  | line hne => exact absurd h hne
  | text hne => exact absurd h hne
  | quit hne => exact absurd h hne

end Moment

/-- The line gets this reply on the connection: the server sends it, and nothing more, however the
line arrives; it ends with a line end, and has no other one unless the line begins with a backslash;
and `sendOnce` returns it, however it arrives. -/
structure GetsReply (moments : ℕ → Moment) (k : Connection) (line reply : Bytes) : Prop where
  sent : ∀ parts : List Bytes, (∀ p ∈ parts, p ≠ []) → parts.flatten = line ++ [10] →
    (parts.foldl (Connection.receive moments) k).sent = k.sent ++ reply ∧
      (parts.foldl (Connection.receive moments) k).buf = []
  ends : reply.getLast? = some 10
  once : RaftClient.isLocal line = false → 10 ∉ reply.dropLast
  read : ∀ pieces : List Bytes, (∀ p ∈ pieces, p ≠ []) → pieces.flatten = reply →
    sendOnce true pieces (RaftClient.isLocal line) = some reply

variable {moments : ℕ → Moment} {k : Connection} {line : Bytes}

/-- What an open connection with nothing in its buffer sends for a line. -/
theorem sent_eq (hbuf : k.buf = []) (hk : k.closed = false) (hline : 10 ∉ line) {parts : List Bytes}
    (hne : ∀ p ∈ parts, p ≠ []) (hparts : parts.flatten = line ++ [10]) :
    (parts.foldl (Connection.receive moments) k).sent =
        k.sent ++ (moments k.lines).reply line ∧
      (parts.foldl (Connection.receive moments) k).buf = [] := by
  rw [Connection.receive_line hk hne hline (by rw [hbuf, List.nil_append, hparts])
    (by rw [hbuf]; exact List.not_mem_nil)]
  exact ⟨rfl, rfl⟩

theorem getsReply_of_trim (hbuf : k.buf = []) (hk : k.closed = false) (hline : 10 ∉ line)
    (htrim : trim line ≠ []) : GetsReply moments k line ((moments k.lines).reply line) := by
  obtain ⟨⟨l, htext⟩, hone⟩ := (moments k.lines).isText_reply htrim
  refine ⟨fun parts hne hparts => sent_eq hbuf hk hline hne hparts, by simp [htext], ?_, ?_⟩
  · intro hlocal
    obtain ⟨l, hl, heq⟩ := hone hlocal
    rw [heq, List.dropLast_concat]
    exact hl
  · intro pieces hne hpieces
    cases hlocal : RaftClient.isLocal line with
    | false =>
      obtain ⟨l, hl, heq⟩ := hone hlocal
      rw [heq] at hpieces ⊢
      exact readReply_line hne hl hpieces List.not_mem_nil
    | true =>
      have hsome : pieces ≠ [] := by
        rintro rfl
        rw [htext] at hpieces
        exact absurd hpieces (by simp)
      rw [← hpieces]
      exact readReply_multiline hne (Or.inr hsome)

/-- **Which lines get a reply**: those with something else than `\r` in them. -/
theorem getsReply_iff (moments : ℕ → Moment) (hbuf : k.buf = []) (hk : k.closed = false)
    (hline : 10 ∉ line) :
    (∃ reply, GetsReply moments k line reply) ↔ ∃ b ∈ line, b ≠ 13 := by
  have htrim : trim line ≠ [] ↔ ∃ b ∈ line, b ≠ 13 := by
    rw [ne_eq, trim, List.rdropWhile_eq_nil_iff]
    constructor
    · intro h
      by_contra hall
      simp only [not_exists, not_and, not_not] at hall
      exact h fun b hb => by simp [hall b hb]
    · rintro ⟨b, hb, hne⟩ hall
      have hnl : b ≠ 10 := fun heq => hline (heq ▸ hb)
      exact absurd (hall b hb) (by simp [hne, hnl])
  rw [← htrim]
  constructor
  · rintro ⟨reply, hreply⟩ hnil
    -- the whole line in one piece
    have hone := (hreply.sent [line ++ [10]] (by simp) (by simp)).1
    rw [(sent_eq hbuf hk hline (by simp) (by simp)).1, Moment.reply_eq_nil _ hnil] at hone
    have hempty : reply = [] := (List.append_cancel_left hone).symm
    have hend := hreply.ends
    rw [hempty] at hend
    exact absurd hend (by simp)
  · intro h
    exact ⟨_, getsReply_of_trim hbuf hk hline h⟩

/-- A moment of a server that has just come into being. -/
def Moment.fresh : Moment where
  server := .new 1 [2, 3]
  all := []
  all_perm := List.Perm.refl _
  later := .new 1 [2, 3]
  accepted := .empty

/-- A read is sent to a fresh server. -/
theorem getsReply_iff_get :
    (∃ reply, GetsReply (fun _ => .fresh) ⟨[], [], 0, false⟩ (ascii "GET a") reply) ↔
      ∃ b ∈ ascii "GET a", b ≠ 13 :=
  getsReply_iff _ rfl rfl (by decide +kernel)

/-- **A line without a reply.**  The client forwards a line of one `\r`, and waits for a reply in each
of its tries until it gives up. -/
theorem no_reply : RaftClient.forwards [13] = true ∧
    (¬ ∃ reply, GetsReply (fun _ => .fresh) ⟨[], [], 0, false⟩ [13] reply) ∧
    ([[13, 10]].foldl (Connection.receive fun _ => .fresh) ⟨[], [], 0, false⟩).sent = [] ∧
    ((RaftClient.mk [1] 0 true).execute [13] fun _ => ⟨[true], true, []⟩).1 =
      ascii "ERR: gave up after retries (no stable leader?)\n" := by
  refine ⟨by decide +kernel, ?_, by decide +kernel, by decide +kernel⟩
  rintro ⟨reply, hreply⟩
  have hsent := (hreply.sent [[13, 10]] (by simp) (by simp)).1
  have hnone : ([[13, 10]].foldl (Connection.receive fun _ => .fresh) ⟨[], [], 0, false⟩).sent = [] := by
    decide +kernel
  rw [hnone, List.nil_append] at hsent
  have hend := hreply.ends
  rw [← hsent] at hend
  exact absurd hend (by simp)

/-! ## Reading a value -/

/-- The line that reads a key. -/
def getLine (key : Bytes) : Bytes := ascii "GET " ++ key

theorem branch_getLine {key : Bytes} (hkey : IsWord key) :
    branch (getLine key ++ [10]) = .propose (.get key) := by
  have hget : ascii "GET " = ascii "GET" ++ [32] := by decide +kernel
  have hword : IsWord (ascii "GET") := ⟨by decide +kernel, by decide +kernel⟩
  have hup : (ascii "GET").map toupper = ascii "GET" := by decide +kernel
  have htrim : trim (getLine key) = getLine key := by
    rw [trim, List.rdropWhile_eq_self_iff]
    intro hne
    have hlast : (getLine key).getLast hne = key.getLast hkey.ne_nil :=
      List.getLast_append_of_ne_nil hne hkey.ne_nil
    have hfree := hkey.free _ (List.getLast_mem hkey.ne_nil)
    rw [hlast]
    rintro hend
    rcases Bool.or_eq_true_iff.mp hend with heq | heq
    · rw [of_decide_eq_true heq] at hfree
      exact absurd hfree (by decide)
    · rw [of_decide_eq_true heq] at hfree
      exact absurd hfree (by decide)
  have hcmd : extract (getLine key) = (ascii "GET", 32 :: key) := by
    rw [getLine, hget, List.append_assoc, List.singleton_append]
    exact extract_of_isWord hword fun b hb => by
      rw [← Option.some.inj hb]
      decide
  have hrest : extract (32 :: key) = (key, []) := by
    have hone := @extract_of_isWord key [] hkey (by simp)
    rw [List.append_nil] at hone
    rw [extract_space (by decide), hone]
  have hne : getLine key ≠ [] := List.append_ne_nil_of_right_ne_nil _ hkey.ne_nil
  unfold branch
  rw [trim_append_newline, htrim]
  dsimp only
  rw [if_neg hne, hcmd]
  dsimp only
  rw [hup, if_neg (by decide +kernel), if_pos rfl, hrest, if_neg hkey.ne_nil]

namespace Moment

variable {m : Moment} {key v : Bytes}

/-- The server leads and goes on leading, and answers when its next entry is committed. -/
structure Leads (m : Moment) : Prop where
  leader : m.server.role = .leader
  still : m.later.role = .leader
  running : m.later.running = true
  committed : m.server.nextLogIndex ≤ m.later.metadata.commitIndex

/-- What a leader returns for a read. -/
theorem handleCommand_getLine (h : m.Leads) (hkey : IsWord key) :
    handleCommand m (getLine key ++ [10]) =
      if m.later.stateMachine.has key then m.later.stateMachine.get key ++ ascii "\n"
      else Answer.notFound.text := by
  have hwait : ¬ (m.later.metadata.commitIndex < m.server.nextLogIndex ∨ m.later.role ≠ .leader) := by
    rw [not_or, not_lt, not_not]
    exact ⟨h.committed, h.still⟩
  rw [handleCommand, branch_getLine hkey]
  dsimp only
  rw [Server.propose, if_neg (not_not.mpr h.leader)]
  dsimp only
  rw [Server.answer, h.running, if_neg (by simp), if_neg hwait]
  dsimp only
  split
  · rfl
  · rfl

/-- What a leader sends for a read. -/
theorem reply_getLine (h : m.Leads) (hkey : IsWord key) :
    m.reply (getLine key) =
      if m.later.stateMachine.has key then m.later.stateMachine.get key ++ [10]
      else ascii "NOT_FOUND" ++ [10] := by
  rw [reply, handleCommand_getLine h hkey]
  split
  · rw [ascii_newline, IsText.outgoing ⟨_, rfl⟩]
  · rw [text_notFound, IsText.outgoing ⟨_, rfl⟩]

end Moment

namespace RaftClient

variable {c : RaftClient} {line : Bytes}

/-- What begins a line begins it before its end. -/
theorem isPrefixOf_concat {a v : Bytes} (ha : 10 ∉ a) : a.isPrefixOf (v ++ [10]) = a.isPrefixOf v := by
  rw [Bool.eq_iff_iff, List.isPrefixOf_iff_prefix, List.isPrefixOf_iff_prefix]
  constructor
  · intro h
    rcases List.prefix_concat_iff.mp h with heq | hpre
    · exact absurd (by simp [heq]) ha
    · exact hpre
  · exact fun h => h.trans (List.prefix_append _ _)

/-- A word is taken for a redirect by how it begins, and never for a timeout. -/
theorem retryable_word {v : Bytes} (hv : IsWord v) :
    retryable (v ++ [10]) =
      ((ascii "NOT_LEADER").isPrefixOf v || (ascii "UNKNOWN_LEADER").isPrefixOf v) := by
  have htimeout : (ascii "ERR: commit timeout").isPrefixOf v = false := by
    rw [Bool.eq_false_iff, ne_eq, List.isPrefixOf_iff_prefix]
    intro h
    have hblank : 32 ∈ v := h.subset (by decide +kernel)
    exact absurd (hv.free 32 hblank) (by decide)
  rw [retryable, isPrefixOf_concat (by decide +kernel), isPrefixOf_concat (by decide +kernel),
    isPrefixOf_concat (by decide +kernel), htimeout, Bool.or_false]

/-- **`execute` never returns an answer that it retries on.** -/
theorem retryable_executeLoop (hlocal : isLocal line = false) (tries : ℕ)
    (attempts : ℕ → Attempt) (c : RaftClient) :
    retryable (executeLoop line tries attempts c).1 = false := by
  induction tries generalizing attempts c with
  | zero => exact (by decide +kernel :
      retryable (ascii "ERR: gave up after retries (no stable leader?)\n") = false)
  | succ tries ih =>
    rw [executeLoop]
    split
    · exact (by decide +kernel : retryable (ascii "ERR: no server reachable\n") = false)
    · split
      · exact ih _ _
      · rw [hlocal, if_neg (by simp)]
        split
        · exact ih _ _
        · next hfinal => exact Bool.eq_false_iff.mpr hfinal

/-- A final answer to the first attempt is returned. -/
theorem execute_of_final {attempts : ℕ → Attempt} {reply : Bytes} (hlocal : isLocal line = false)
    (hdial : (c.ensureConnected (attempts 0).dials).1 = true)
    (hread : sendOnce (attempts 0).sent (attempts 0).pieces false = some reply)
    (hfinal : retryable reply = false) : (c.execute line attempts).1 = reply := by
  rw [execute, maxTries, executeLoop]
  rcases hensure : c.ensureConnected (attempts 0).dials with ⟨ok, c'⟩
  rw [hensure] at hdial
  obtain rfl : ok = true := hdial
  dsimp only
  rw [hlocal, hread]
  dsimp only
  rw [if_neg (by simp), hfinal, if_neg (by simp)]

end RaftClient

/-- The first attempt of a call reaches the server that handles the line at the moment `m`, and the
client receives what it sends. -/
structure Reaches (c : RaftClient) (attempts : ℕ → RaftClient.Attempt) (m : Moment) (line : Bytes) :
    Prop where
  dialled : (c.ensureConnected (attempts 0).dials).1 = true
  sent : (attempts 0).sent = true
  received : ∀ p ∈ (attempts 0).pieces, p ≠ []
  whole : (attempts 0).pieces.flatten = m.reply line

/-- The client gets the value, and could not have got the same for a key that is not there. -/
structure ReadsValue (v result : Bytes) : Prop where
  value : result = v ++ ascii "\n"
  present : result ≠ Answer.notFound.text

/-- No status word, and nothing that begins like a redirect. -/
structure Unmistakable (v : Bytes) : Prop where
  notLeader : ¬ ascii "NOT_LEADER" <+: v
  unknownLeader : ¬ ascii "UNKNOWN_LEADER" <+: v
  notFound : v ≠ ascii "NOT_FOUND"

section Reads

variable {m : Moment} {c : RaftClient} {attempts : ℕ → RaftClient.Attempt} {key v : Bytes}

theorem isLocal_getLine (key : Bytes) : RaftClient.isLocal (getLine key) = false := by
  have hget : ascii "GET " = 71 :: ascii "ET " := by decide +kernel
  rw [RaftClient.isLocal, getLine, hget]
  rfl

/-- The client reads what the leader sends. -/
theorem Reaches.read (h : Reaches c attempts m (getLine key)) {text : Bytes} (htext : 10 ∉ text)
    (hreply : m.reply (getLine key) = text ++ [10]) :
    sendOnce (attempts 0).sent (attempts 0).pieces false = some (text ++ [10]) := by
  rw [sendOnce, h.sent]
  exact readReply_line h.received htext (by rw [List.nil_append, h.whole, hreply]) List.not_mem_nil

/-- The answer for a key that is not there. -/
theorem execute_absent (hleads : m.Leads) (hkey : IsWord key)
    (habsent : m.later.stateMachine.has key = false) (h : Reaches c attempts m (getLine key)) :
    (c.execute (getLine key) attempts).1 = Answer.notFound.text := by
  have hreply := m.reply_getLine hleads hkey
  rw [habsent, if_neg (by simp)] at hreply
  rw [text_notFound]
  exact RaftClient.execute_of_final (isLocal_getLine key) h.dialled
    (h.read (by decide +kernel) hreply) (by decide +kernel)

/-- **Which values are read as they are**: a client that reads a key at a stable leader gets the
value, and can tell it from a missing one, exactly if the value is not `NOT_FOUND` and does not
begin with `NOT_LEADER` or `UNKNOWN_LEADER`. -/
theorem readsValue_iff (hleads : m.Leads) (hv : m.later.stateMachine.store.lookup key = some v)
    (h : Reaches c attempts m (getLine key)) :
    ReadsValue v (c.execute (getLine key) attempts).1 ↔ Unmistakable v := by
  obtain ⟨hkey, hword⟩ := m.accepted.isWord hv
  have hreply := m.reply_getLine hleads hkey
  have hhas : m.later.stateMachine.has key = true := by rw [KVStateMachine.has, hv]; rfl
  have hget : m.later.stateMachine.get key = v := by rw [KVStateMachine.get, hv]; rfl
  rw [hhas, if_pos rfl, hget] at hreply
  have hread := h.read hword.newline_notMem hreply
  have hretry := RaftClient.retryable_word hword
  constructor
  · rintro ⟨hvalue, hpresent⟩
    rw [ascii_newline] at hvalue
    have hfinal := RaftClient.retryable_executeLoop (isLocal_getLine key) maxTries attempts c
    rw [← RaftClient.execute, hvalue, hretry] at hfinal
    obtain ⟨hnot, hunknown⟩ := Bool.or_eq_false_iff.mp hfinal
    refine ⟨fun hpre => ?_, fun hpre => ?_, fun heq => ?_⟩
    · rw [List.isPrefixOf_iff_prefix.mpr hpre] at hnot
      exact absurd hnot (by simp)
    · rw [List.isPrefixOf_iff_prefix.mpr hpre] at hunknown
      exact absurd hunknown (by simp)
    · exact hpresent (by rw [hvalue, heq, text_notFound])
  · rintro ⟨hnot, hunknown, hfound⟩
    have hfinal : RaftClient.retryable (v ++ [10]) = false := by
      rw [hretry, Bool.or_eq_false_iff]
      exact ⟨Bool.eq_false_iff.mpr (List.isPrefixOf_iff_prefix.not.mpr hnot),
        Bool.eq_false_iff.mpr (List.isPrefixOf_iff_prefix.not.mpr hunknown)⟩
    have hresult := RaftClient.execute_of_final (isLocal_getLine key) h.dialled hread hfinal
    refine ⟨by rw [hresult, ascii_newline], fun heq => ?_⟩
    rw [hresult, text_notFound] at heq
    exact hfound (List.append_cancel_right heq)

end Reads

/-- The contents after a single line. -/
def KVStateMachine.after (line : Bytes) : KVStateMachine :=
  match branch line with
  | .propose request => KVStateMachine.empty.apply request.command
  | _ => .empty

theorem KVStateMachine.accepted_after (line : Bytes) : (after line).Accepted := by
  unfold after
  split
  · next h => exact .apply .empty h
  · exact .empty

/-- A moment in which a leader without peers reads what a single line has stored. -/
def Moment.reading (line : Bytes) : Moment where
  server := { Server.new 1 [] with role := .leader, running := true }
  all := []
  all_perm := List.Perm.refl _
  later :=
    { Server.new 1 [] with
      role := .leader
      running := true
      stateMachine := .after line
      metadata := { MetaData.initial with commitIndex := 1 } }
  accepted := KVStateMachine.accepted_after line

/-- A value with a status word in the middle is read, in two pieces. -/
theorem readsValue_iff_put :
    ReadsValue (ascii "is_NOT_LEADER") ((RaftClient.mk [1] 0 true).execute (getLine (ascii "k"))
        fun _ => ⟨[], true, [ascii "is_", ascii "NOT_LEADER\n"]⟩).1 ↔
      Unmistakable (ascii "is_NOT_LEADER") := by
  have hleads : (Moment.reading (ascii "PUT k is_NOT_LEADER\n")).Leads :=
    ⟨rfl, rfl, rfl, by decide⟩
  exact readsValue_iff hleads (by decide +kernel)
    ⟨rfl, rfl, by decide +kernel, by decide +kernel⟩

/-- **Values that are not read.**  A client that meets the leader in all its tries gives up on the value
`NOT_LEADER`, and it reads the value `NOT_FOUND` as if the key were not there. -/
theorem value_mistaken : ∃ m m' : Moment,
    m.Leads ∧ m.later.stateMachine.store.lookup (ascii "k") = some (ascii "NOT_LEADER") ∧
    ((RaftClient.mk [1] 0 true).execute (getLine (ascii "k"))
      fun _ => ⟨[true], true, [m.reply (getLine (ascii "k"))]⟩).1 =
        ascii "ERR: gave up after retries (no stable leader?)\n" ∧
    m'.Leads ∧ m'.later.stateMachine.store.lookup (ascii "k") = some (ascii "NOT_FOUND") ∧
    ((RaftClient.mk [1] 0 true).execute (getLine (ascii "k"))
      fun _ => ⟨[true], true, [m'.reply (getLine (ascii "k"))]⟩).1 = Answer.notFound.text :=
  ⟨.reading (ascii "PUT k NOT_LEADER\n"), .reading (ascii "PUT k NOT_FOUND\n"),
    ⟨rfl, rfl, rfl, by decide⟩, by decide +kernel, by decide +kernel,
    ⟨rfl, rfl, rfl, by decide⟩, by decide +kernel, by decide +kernel⟩

end RaftConsensus
