import RaftConsensus.Library.Streams
import RaftConsensus.Replies

/-!
# A client's stream, cut in any way (`handleClient`)

The thread of a client calls `recv` again and again.  A call may time out, and the bytes that it
brings may end anywhere: within a line, at its end, or behind several lines.  The thread takes every
complete line out of its buffer and keeps what is left for the next call.

`ClientThread` remembers which lines it has passed to `handleCommand`.  `lines` are the pieces of a
stream that end with a line end, and `untilQuit` cuts them off behind the first QUIT.

* `handleClient_passed`: the lines that are passed, from the stream alone.
* `handleClient_chunks`: two ways of cutting one stream come to the same.
-/

namespace RaftConsensus

/-! ## What is returned for a line -/

theorem isText_answer (a : Answer) : IsText a.text := by
  cases a with
  | value v =>
    rw [Answer.text, ascii_newline]
    exact ⟨v, rfl⟩
  | _ => exact (isLine_answer (by simp)).isText

/-- What is returned for a line that is neither empty nor QUIT ends with a line end. -/
theorem isText_handleCommand (m : Moment) {line : Bytes} (hempty : branch line ≠ .empty)
    (hquit : branch line ≠ .quit) : IsText (handleCommand m line) := by
  have hway := branch_way line
  rw [handleCommand]
  generalize branch line = way at hway hempty hquit
  cases hway with
  | empty => exact absurd rfl hempty
  | error text h htext => exact htext.isText
  | propose =>
    dsimp only
    split
    · rw [Server.notLeaderMsg]
      split
      · exact isText_answer _
      · exact isText_answer _
    · exact isText_answer _
  | status => exact isText_handleStatus _
  | dump => exact isText_handleDump _
  | hash => exact isText_handleHash _
  | quit => exact absurd rfl hquit

/-- **QUIT is the answer to QUIT**, at every moment. -/
theorem handleCommand_eq_quit (m : Moment) (line : Bytes) :
    handleCommand m line = ascii "QUIT" ↔ branch line = .quit := by
  constructor
  · intro h
    by_contra hquit
    by_cases hempty : branch line = .empty
    · rw [handleCommand, hempty] at h
      have hne : [] ≠ ascii "QUIT" := by decide +kernel
      exact hne h
    · exact (isText_handleCommand m hempty hquit).ne_quit h
  · intro h
    rw [handleCommand, h]

/-- Nothing is returned for a line of nothing but line ends. -/
theorem handleCommand_eq_nil (m : Moment) (line : Bytes) :
    handleCommand m line = [] ↔ branch line = .empty := by
  constructor
  · intro h
    by_contra hempty
    by_cases hquit : branch line = .quit
    · rw [handleCommand, hquit] at h
      have hne : ascii "QUIT" ≠ [] := by decide +kernel
      exact hne h
    · obtain ⟨l, hl⟩ := isText_handleCommand m hempty hquit
      rw [h] at hl
      exact absurd hl (by simp)
  · intro h
    rw [handleCommand, h]

/-! ## The thread -/

/-- The thread of a client: what is received and not yet handled, what was sent, and the lines that
were passed to `handleCommand`. -/
structure ClientThread where
  buf : Bytes
  sent : Bytes
  passed : List Bytes
  closed : Bool
  deriving DecidableEq, Repr

namespace ClientThread

/-- `sendAllClient`; a connection that breaks has taken some bytes. -/
def sendAllClient (broken : Option ℕ) (resp : Bytes) : Bytes :=
  match broken with
  | none => resp
  | some n => resp.take n

/-- The inner loop of `handleClient`.  Line `n` is handled at the moment `moments n`, and `sends n`
is what becomes of the reply. -/
def handleLines (moments : ℕ → Moment) (sends : ℕ → Option ℕ) : ℕ → ClientThread → ClientThread
  | 0, k => k
  | fuel + 1, k =>
    match Connection.cutLine k.buf with
    | none => k
    | some (line, buf) =>
      let n := k.passed.length
      let resp := handleCommand (moments n) line
      let passed := k.passed ++ [line]
      if resp = ascii "QUIT" then
        ⟨buf, k.sent ++ sendAllClient (sends n) (ascii "Goodbye\n"), passed, true⟩
      else if resp ≠ [] ∧ sends n ≠ none then
        ⟨buf, k.sent ++ sendAllClient (sends n) resp, passed, true⟩
      else handleLines moments sends fuel ⟨buf, k.sent ++ resp, passed, k.closed⟩

/-- The faults that `handleClient` survives. -/
def again (f : Fault) : Bool := f = .timedOut

/-- One turn of the outer loop; the socket brings up to 4095 bytes. -/
def receive (moments : ℕ → Moment) (sends : ℕ → Option ℕ) (k : ClientThread) :
    Recv UInt8 → ClientThread
  | .fault f => if again f then k else { k with closed := true }
  | .received bytes =>
    if k.closed then k
    else if bytes = [] then { k with closed := true }
    else
      let buf := k.buf ++ bytes
      handleLines moments sends buf.length { k with buf := buf }

/-- `handleClient`, as long as the server runs. -/
def handleClient (moments : ℕ → Moment) (sends : ℕ → Option ℕ) (rs : List (Recv UInt8)) :
    ClientThread :=
  rs.foldl (receive moments sends) ⟨[], [], [], false⟩

/-- What both ends know of the thread: its connection. -/
def connection (k : ClientThread) : Connection := ⟨k.buf, k.sent, k.passed.length, k.closed⟩

/-- Where replies get through, the thread is the server's end of the connection. -/
theorem handleLines_connection (moments : ℕ → Moment) {fuel : ℕ} {k : ClientThread}
    (hk : k.closed = false) :
    (handleLines moments (fun _ => none) fuel k).connection =
      Connection.handleLines moments fuel k.connection := by
  induction fuel generalizing k with
  | zero => rfl
  | succ fuel ih =>
    have hbuf : k.connection.buf = k.buf := rfl
    have hlines : k.connection.lines = k.passed.length := rfl
    have hsent : k.connection.sent = k.sent := rfl
    rw [handleLines, Connection.handleLines, hbuf, hlines, hsent]
    rcases Connection.cutLine k.buf with _ | ⟨line, buf⟩
    · rfl
    dsimp only
    by_cases hquit : handleCommand (moments k.passed.length) line = ascii "QUIT"
    · rw [if_pos hquit, if_pos (by simpa using hquit)]
      simp [connection, Connection.outgoing, sendAllClient, hquit]
    · rw [if_neg hquit, if_neg (by simp), if_neg (by simpa using hquit)]
      refine (ih (k := ⟨buf, _, _, k.closed⟩) hk).trans ?_
      simp [connection, Connection.outgoing, hquit, hk]

/-- **Received piece by piece**, the thread is the connection. -/
theorem handleClient_connection (moments : ℕ → Moment) (parts : List Bytes) :
    (handleClient moments (fun _ => none) (parts.map .received)).connection =
      parts.foldl (Connection.receive moments) ⟨[], [], 0, false⟩ := by
  have hstep (k : ClientThread) (bytes : Bytes) :
      (receive moments (fun _ => none) k (.received bytes)).connection =
        k.connection.receive moments bytes := by
    have hclosed : k.connection.closed = k.closed := rfl
    rw [receive, Connection.receive, hclosed]
    by_cases hk : k.closed = true
    · rw [if_pos hk, if_pos hk]
    rw [if_neg hk, if_neg hk]
    split
    · rfl
    · exact handleLines_connection moments (k := { k with buf := k.buf ++ bytes })
        (Bool.eq_false_iff.mpr hk)
  rw [handleClient, List.foldl_map]
  have hfold (k : ClientThread) :
      (parts.foldl (fun k bytes => receive moments (fun _ => none) k (.received bytes))
        k).connection = parts.foldl (Connection.receive moments) k.connection := by
    induction parts generalizing k with
    | nil => rfl
    | cons bytes parts ih => rw [List.foldl_cons, List.foldl_cons, ih, hstep]
  exact hfold _

/-! ## The lines of a stream -/

/-- The pieces of a stream that end with a line end. -/
def lines (stream : Bytes) : List Bytes := (stream.splitOn 10).dropLast.map fun l => l ++ [10]

/-- The lines up to the first QUIT, which is one of them; without a QUIT these are all. -/
def untilQuit : List Bytes → List Bytes
  | [] => []
  | line :: rest => if branch line = .quit then [line] else line :: untilQuit rest

/-- The same where replies may not get through: a line whose reply is lost is the last one. -/
def untilEnd (sends : ℕ → Option ℕ) : ℕ → List Bytes → List Bytes
  | _, [] => []
  | n, line :: rest =>
    if branch line = .quit ∨ (branch line ≠ .empty ∧ sends n ≠ none) then [line]
    else line :: untilEnd sends (n + 1) rest

theorem lines_of_notMem {stream : Bytes} (h : 10 ∉ stream) : lines stream = [] := by
  rw [lines, List.splitOn_eq_singleton h]
  rfl

theorem lines_line_append {line : Bytes} (h : 10 ∉ line) (rest : Bytes) :
    lines (line ++ [10] ++ rest) = (line ++ [10]) :: lines rest := by
  rw [lines, List.append_assoc, List.singleton_append, List.splitOn_append_cons_self,
    List.splitOn_eq_singleton h, List.singleton_append,
    List.dropLast_cons_of_ne_nil (List.splitOn_ne_nil 10 rest), List.map_cons]
  rfl

/-- A line end cuts a line off. -/
theorem exists_line_of_mem {stream : Bytes} (h : 10 ∈ stream) :
    ∃ line rest, 10 ∉ line ∧ stream = line ++ [10] ++ rest := by
  obtain ⟨line, rest, heq, hline⟩ := List.eq_append_cons_of_mem h
  exact ⟨line, rest, hline, by rw [heq, List.append_assoc, List.singleton_append]⟩

/-! ## Any cut -/

variable {moments : ℕ → Moment} {sends : ℕ → Option ℕ}

/-- Whether line `n` is the last one that is passed. -/
def Ends (sends : ℕ → Option ℕ) (n : ℕ) (line : Bytes) : Prop :=
  branch line = .quit ∨ (branch line ≠ .empty ∧ sends n ≠ none)

theorem untilEnd_cons_ends {n : ℕ} {line : Bytes} (h : Ends sends n line) (rest : List Bytes) :
    untilEnd sends n (line :: rest) = [line] := if_pos h

theorem untilEnd_cons_not {n : ℕ} {line : Bytes} (h : ¬ Ends sends n line) (rest : List Bytes) :
    untilEnd sends n (line :: rest) = line :: untilEnd sends (n + 1) rest := if_neg h

/-- A turn of the inner loop that is the last one. -/
theorem handleLines_ends (moments : ℕ → Moment) (fuel : ℕ) {k : ClientThread} {line rest : Bytes}
    (hline : 10 ∉ line) (hbuf : k.buf = line ++ [10] ++ rest)
    (h : Ends sends k.passed.length (line ++ [10])) :
    (handleLines moments sends (fuel + 1) k).closed = true ∧
      (handleLines moments sends (fuel + 1) k).passed = k.passed ++ [line ++ [10]] := by
  rw [handleLines, hbuf, Connection.cutLine_line_append hline]
  dsimp only
  by_cases hquit : branch (line ++ [10]) = .quit
  · rw [if_pos ((handleCommand_eq_quit _ _).mpr hquit)]
    exact ⟨rfl, rfl⟩
  · obtain ⟨hempty, hlost⟩ := h.resolve_left hquit
    rw [if_neg (mt (handleCommand_eq_quit _ _).mp hquit),
      if_pos ⟨mt (handleCommand_eq_nil _ _).mp hempty, hlost⟩]
    exact ⟨rfl, rfl⟩

/-- A turn that is not. -/
theorem handleLines_next {fuel : ℕ} {k : ClientThread} {line rest : Bytes} (hline : 10 ∉ line)
    (hbuf : k.buf = line ++ [10] ++ rest) (h : ¬ Ends sends k.passed.length (line ++ [10])) :
    handleLines moments sends (fuel + 1) k = handleLines moments sends fuel
      ⟨rest, k.sent ++ handleCommand (moments k.passed.length) (line ++ [10]),
        k.passed ++ [line ++ [10]], k.closed⟩ := by
  obtain ⟨hquit, hsent⟩ := not_or.mp h
  rw [handleLines, hbuf, Connection.cutLine_line_append hline]
  dsimp only
  rw [if_neg (mt (handleCommand_eq_quit _ _).mp hquit), if_neg]
  rintro ⟨hresp, hlost⟩
  exact hsent ⟨mt (handleCommand_eq_nil _ _).mpr hresp, hlost⟩

/-- **The inner loop takes out what it can**: whatever comes later, the lines that are passed now and
the lines that will be passed are those of the buffer and of what comes. -/
theorem handleLines_passed (moments : ℕ → Moment) (sends : ℕ → Option ℕ) (later : Bytes)
    {fuel : ℕ} {k : ClientThread} (hfuel : k.buf.length ≤ fuel) (hk : k.closed = false) :
    let k' := handleLines moments sends fuel k
    (k'.closed = false → 10 ∉ k'.buf) ∧
      k'.passed ++ (if k'.closed then [] else
        untilEnd sends k'.passed.length (lines (k'.buf ++ later))) =
      k.passed ++ untilEnd sends k.passed.length (lines (k.buf ++ later)) := by
  induction fuel generalizing k with
  | zero =>
    have hnil : k.buf = [] := List.length_eq_zero_iff.mp (Nat.le_zero.mp hfuel)
    simp [handleLines, hnil, hk]
  | succ fuel ih =>
    intro k'
    by_cases h : 10 ∈ k.buf
    · obtain ⟨line, rest, hline, hbuf⟩ := exists_line_of_mem h
      have hlines : lines (k.buf ++ later) = (line ++ [10]) :: lines (rest ++ later) := by
        rw [hbuf, List.append_assoc, lines_line_append hline]
      by_cases hends : Ends sends k.passed.length (line ++ [10])
      · obtain ⟨hclosed, hpassed⟩ :=
          handleLines_ends moments fuel hline hbuf hends
        rw [hlines, untilEnd_cons_ends hends, hpassed, if_pos hclosed, List.append_nil]
        exact ⟨fun hopen => absurd (hclosed.symm.trans hopen) (by simp), rfl⟩
      · have hlen : rest.length ≤ fuel := by
          rw [hbuf, List.length_append, List.length_append, List.length_singleton] at hfuel
          omega
        have hrest := ih (k := ⟨rest, k.sent ++ handleCommand (moments k.passed.length)
          (line ++ [10]), k.passed ++ [line ++ [10]], k.closed⟩) hlen hk
        rw [← handleLines_next hline hbuf hends] at hrest
        rw [hlines, untilEnd_cons_not hends]
        refine ⟨hrest.1, hrest.2.trans ?_⟩
        rw [List.length_append, List.length_singleton, List.append_assoc, List.singleton_append]
    · have hsame : k' = k := by
        show handleLines moments sends (fuel + 1) k = k
        rw [handleLines, Connection.cutLine_of_notMem h]
      rw [hsame, if_neg (by simp [hk])]
      exact ⟨fun _ => h, rfl⟩

theorem foldl_receive_closed {k : ClientThread} (hk : k.closed = true) (rs : List (Recv UInt8)) :
    (rs.foldl (receive moments sends) k).passed = k.passed := by
  induction rs generalizing k with
  | nil => rfl
  | cons r rs ih =>
    rw [List.foldl_cons]
    cases r with
    | fault f =>
      rw [receive]
      split
      · exact ih hk
      · exact ih rfl
    | received bytes =>
      rw [receive, if_pos hk]
      exact ih hk

/-- **The lines that are passed**, from where the thread stands and from what will be received. -/
theorem foldl_receive_passed {rs : List (Recv UInt8)} {k : ClientThread} (hk : k.closed = false)
    (hbuf : 10 ∉ k.buf) :
    (rs.foldl (receive moments sends) k).passed =
      k.passed ++ untilEnd sends k.passed.length (lines (k.buf ++ arrived again rs)) := by
  induction rs generalizing k with
  | nil =>
    rw [arrived, List.append_nil, lines_of_notMem hbuf]
    exact (List.append_nil _).symm
  | cons r rs ih =>
    -- the end of the stream: what is left in the buffer is no line
    have hlast : ({ k with closed := true } : ClientThread).passed =
        k.passed ++ untilEnd sends k.passed.length (lines (k.buf ++ [])) := by
      rw [List.append_nil, lines_of_notMem hbuf]
      exact (List.append_nil _).symm
    rw [List.foldl_cons]
    cases r with
    | fault f =>
      rw [receive, arrived]
      split
      · exact ih hk hbuf
      · exact (foldl_receive_closed rfl rs).trans hlast
    | received bytes =>
      rw [receive, if_neg (by simp [hk]), arrived]
      by_cases hnil : bytes = []
      · rw [if_pos hnil, if_pos hnil]
        exact (foldl_receive_closed rfl rs).trans hlast
      rw [if_neg hnil, if_neg hnil, ← List.append_assoc]
      dsimp only
      obtain ⟨hrest, hpassed⟩ := handleLines_passed moments sends (arrived again rs)
        (k := { k with buf := k.buf ++ bytes }) le_rfl hk
      generalize handleLines moments sends (k.buf ++ bytes).length
        { k with buf := k.buf ++ bytes } = k' at hrest hpassed ⊢
      rw [← hpassed]
      by_cases hclosed : k'.closed = true
      · rw [if_pos hclosed, List.append_nil]
        exact foldl_receive_closed hclosed rs
      · have hopen : k'.closed = false := Bool.eq_false_iff.mpr hclosed
        rw [if_neg hclosed]
        exact ih hopen (hrest hopen)

theorem handleClient_untilEnd (rs : List (Recv UInt8)) :
    (handleClient moments sends rs).passed = untilEnd sends 0 (lines (arrived again rs)) :=
  foldl_receive_passed rfl List.not_mem_nil

/-- With no reply lost, QUIT is the only end. -/
theorem untilEnd_eq_untilQuit (hsends : ∀ n, sends n = none) (n : ℕ) (ls : List Bytes) :
    untilEnd sends n ls = untilQuit ls := by
  induction ls generalizing n with
  | nil => rfl
  | cons line rest ih => simp [untilEnd, untilQuit, hsends, ih]

/-- **How a stream is cut does not matter.**  From two schedules of one stream, at whatever moments
the lines are handled, the thread passes the same lines; and if its replies get through, these are
the lines of the stream up to the first QUIT. -/
theorem handleClient_chunks {stream : Bytes} {rs rs' : List (Recv UInt8)} (h : arrived again rs = stream)
    (h' : arrived again rs' = stream) (moments moments' : ℕ → Moment) (sends : ℕ → Option ℕ) :
    (handleClient moments sends rs).passed = (handleClient moments' sends rs').passed ∧
      ((∀ n, sends n = none) →
        (handleClient moments sends rs).passed = untilQuit (lines stream)) := by
  rw [handleClient_untilEnd, handleClient_untilEnd, h, h']
  exact ⟨rfl, fun hsends => untilEnd_eq_untilQuit hsends 0 _⟩

/-- Two lines and a piece, at once, or in four pieces with pauses; the second line is QUIT. -/
theorem handleClient_chunks_two :
    (handleClient (fun _ => .fresh) (fun _ => none)
        [.received (ascii "GET a\nquit\nGET b\nGE")]).passed =
      (handleClient (fun _ => .fresh) (fun _ => none)
        [.received (ascii "GE"), .fault .timedOut, .received (ascii "T a"), .received (ascii "\nqu"),
          .fault .timedOut, .fault .timedOut, .received (ascii "it\nGET b\nGE")]).passed ∧
    ((∀ n : ℕ, (fun _ => none : ℕ → Option ℕ) n = none) →
      (handleClient (fun _ => .fresh) (fun _ => none)
        [.received (ascii "GET a\nquit\nGET b\nGE")]).passed =
          untilQuit (lines (ascii "GET a\nquit\nGET b\nGE"))) :=
  handleClient_chunks (by decide +kernel) (by decide +kernel) _ _ _

example : untilQuit (lines (ascii "GET a\nquit\nGET b\nGE")) =
    [ascii "GET a\n", ascii "quit\n"] := by decide +kernel

end ClientThread

end RaftConsensus
