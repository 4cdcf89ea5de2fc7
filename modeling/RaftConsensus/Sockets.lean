import RaftConsensus.CommandLine
import RaftConsensus.Library.PrefixCode

/-!
# The two ends of a connection (`handleClient`, `sendOnce`, `execute`)

A connection carries bytes, and neither end sees how the other one has cut them.  `handleClient`
collects what it receives and handles every complete line.  `sendOnce` sends one line and reads
until it takes the reply for complete: a reply is over when it ends with a line end, or, for the
commands with a backslash, when nothing comes any more.

What a server does with a line depends on when it gets it: line `n` of a connection is handled at
the moment `moments n`.  Whatever a socket does to the client is in `Attempt`.  What the server
sends is taken to get through.

* `Connection.receive_line`: a line is handled once, in whatever pieces it arrives.
* `readReply_line`: a reply of one line is read, in whatever pieces it arrives.
-/

namespace RaftConsensus

/-! ## The server's end -/

/-- A connection in `handleClient`: what is received and not yet handled, what was sent, and how many
lines were handled. -/
structure Connection where
  buf : Bytes
  sent : Bytes
  lines : ℕ
  closed : Bool
  deriving DecidableEq, Repr

namespace Connection

/-- The first line of the buffer with its end, and the rest. -/
def cutLine (buf : Bytes) : Option (Bytes × Bytes) :=
  (buf.idxOf? 10).map fun nl => (buf.take (nl + 1), buf.drop (nl + 1))

/-- What `handleClient` sends when `handleCommand` has returned `resp`. -/
def outgoing (resp : Bytes) : Bytes := if resp = ascii "QUIT" then ascii "Goodbye\n" else resp

/-- The inner loop of `handleClient`. -/
def handleLines (moments : ℕ → Moment) : ℕ → Connection → Connection
  | 0, k => k
  | fuel + 1, k =>
    match cutLine k.buf with
    | none => k
    | some (line, buf) =>
      let resp := handleCommand (moments k.lines) line
      let k' : Connection := ⟨buf, k.sent ++ outgoing resp, k.lines + 1, resp = ascii "QUIT"⟩
      if k'.closed then k' else handleLines moments fuel k'

/-- A `recv` of `handleClient`; it brings no bytes when the client has gone. -/
def receive (moments : ℕ → Moment) (k : Connection) (bytes : Bytes) : Connection :=
  if k.closed then k
  else if bytes = [] then { k with closed := true }
  else
    let buf := k.buf ++ bytes
    handleLines moments buf.length { k with buf := buf }

variable {moments : ℕ → Moment} {k : Connection} {line : Bytes}

theorem cutLine_of_notMem (h : 10 ∉ line) : cutLine line = none := by
  rw [cutLine, List.idxOf?_eq_none_iff.mpr h, Option.map_none]

theorem cutLine_line_append (h : 10 ∉ line) (rest : Bytes) :
    cutLine (line ++ [10] ++ rest) = some (line ++ [10], rest) := by
  have hidx : (line ++ [10] ++ rest).idxOf? 10 = some line.length := by
    rw [List.idxOf?_eq_some_iff]
    refine ⟨by simp, by simp, fun j hj => ?_⟩
    rw [List.getElem_append_left (by rw [List.length_append]; omega), List.getElem_append_left hj]
    exact fun heq => h (heq ▸ List.getElem_mem hj)
  have hlen : (line ++ [10]).length = line.length + 1 := by simp
  rw [cutLine, hidx, Option.map_some, ← hlen, List.take_left, List.drop_left]

theorem cutLine_line (h : 10 ∉ line) : cutLine (line ++ [10]) = some (line ++ [10], []) := by
  have hcut := cutLine_line_append h []
  rwa [List.append_nil] at hcut

/-- A part of a line is kept. -/
theorem receive_part (hk : k.closed = false) {bytes : Bytes} (hne : bytes ≠ [])
    (h : 10 ∉ k.buf ++ bytes) : k.receive moments bytes = { k with buf := k.buf ++ bytes } := by
  have hfuel : 0 < (k.buf ++ bytes).length := by
    rw [List.length_append]
    have := List.length_pos_iff.mpr hne
    omega
  obtain ⟨fuel, hfuel⟩ := Nat.exists_eq_add_of_lt hfuel
  rw [receive, hk, if_neg (by simp), if_neg hne]
  dsimp only
  rw [hfuel, handleLines]
  dsimp only
  rw [cutLine_of_notMem h]

/-- The connection after a line that was handled at the moment `m`. -/
def answered (k : Connection) (m : Moment) (line : Bytes) : Connection where
  buf := []
  sent := k.sent ++ outgoing (handleCommand m line)
  lines := k.lines + 1
  closed := handleCommand m line = ascii "QUIT"

/-- The end of a line makes it be handled. -/
theorem receive_end (hk : k.closed = false) {bytes : Bytes} (hne : bytes ≠ []) (hline : 10 ∉ line)
    (h : k.buf ++ bytes = line ++ [10]) :
    k.receive moments bytes = k.answered (moments k.lines) (line ++ [10]) := by
  rw [receive, hk, if_neg (by simp), if_neg hne]
  dsimp only
  rw [h, List.length_append, List.length_singleton, handleLines]
  dsimp only
  rw [cutLine_line hline]
  dsimp only
  rw [answered]
  by_cases hquit : handleCommand (moments k.lines) (line ++ [10]) = ascii "QUIT"
  · rw [if_pos (by simpa using hquit)]
  · rw [if_neg (by simpa using hquit)]
    -- nothing is left for another turn
    cases line.length with
    | zero => rfl
    | succ fuel => rfl

/-- **A line is handled once**, in whatever pieces it arrives. -/
theorem receive_line (hk : k.closed = false) {parts : List Bytes} (hne : ∀ p ∈ parts, p ≠ [])
    (hline : 10 ∉ line) (h : k.buf ++ parts.flatten = line ++ [10]) (hbuf : 10 ∉ k.buf) :
    parts.foldl (receive moments) k = k.answered (moments k.lines) (line ++ [10]) := by
  induction parts generalizing k with
  | nil =>
    rw [List.flatten_nil, List.append_nil] at h
    exact absurd (by simp [h]) hbuf
  | cons p ps ih =>
    rw [List.foldl_cons]
    have hp : p ≠ [] := hne p List.mem_cons_self
    rcases PrefixCode.append_flatten_eq hne h with ⟨rfl, hend⟩ | ⟨r, hr, hrest⟩
    · exact receive_end hk hp hline hend
    · have hpart : 10 ∉ k.buf ++ p := fun hmem =>
        hline (by rw [hr]; exact List.mem_append_left r hmem)
      rw [receive_part hk hp hpart]
      exact ih (k := { k with buf := k.buf ++ p }) hk (fun q hq => hne q (List.mem_cons_of_mem p hq))
        hrest hpart

end Connection

/-! ## The client's end -/

/-- `sendOnce` after it has sent its line: what is read, piece by piece.  When there are no more
pieces, `poll` times out; a piece without bytes is the end of the connection. -/
def readReply (multiline : Bool) : Bytes → Bool → List Bytes → Option Bytes
  | response, got, [] => if got && multiline then some response else none
  | response, _, buf :: pieces =>
    if buf = [] then none
    else if !multiline && (response ++ buf).getLast? = some 10 then some (response ++ buf)
    else readReply multiline (response ++ buf) true pieces

/-- `sendOnce` on an open connection; `sent` says whether `send` takes the line. -/
def sendOnce (sent : Bool) (pieces : List Bytes) (multiline : Bool) : Option Bytes :=
  if !sent then none else readReply multiline [] false pieces

/-- **A reply of one line is read**, in whatever pieces it arrives. -/
theorem readReply_line {reply response : Bytes} {got : Bool} {pieces : List Bytes}
    (hne : ∀ p ∈ pieces, p ≠ []) (hreply : 10 ∉ reply)
    (h : response ++ pieces.flatten = reply ++ [10]) (hresponse : 10 ∉ response) :
    readReply false response got pieces = some (reply ++ [10]) := by
  induction pieces generalizing response got with
  | nil =>
    rw [List.flatten_nil, List.append_nil] at h
    exact absurd (by simp [h]) hresponse
  | cons p ps ih =>
    rw [readReply, if_neg (hne p List.mem_cons_self)]
    rcases PrefixCode.append_flatten_eq hne h with ⟨rfl, hend⟩ | ⟨r, hr, hrest⟩
    · rw [hend, if_pos (by simp)]
    · have hpart : 10 ∉ response ++ p := fun hmem =>
        hreply (by rw [hr]; exact List.mem_append_left r hmem)
      have hlast : (response ++ p).getLast? ≠ some 10 :=
        fun hlast => hpart (List.mem_of_getLast? hlast)
      rw [if_neg (by simpa using hlast)]
      exact ih (fun q hq => hne q (List.mem_cons_of_mem p hq)) hrest hpart

/-- A reply to a command with a backslash is read until nothing comes any more. -/
theorem readReply_multiline {response : Bytes} {got : Bool} {pieces : List Bytes}
    (hne : ∀ p ∈ pieces, p ≠ []) (hgot : got = true ∨ pieces ≠ []) :
    readReply true response got pieces = some (response ++ pieces.flatten) := by
  induction pieces generalizing response got with
  | nil =>
    have hgot : got = true := hgot.resolve_right (by simp)
    rw [readReply, hgot, Bool.and_self, if_pos rfl, List.flatten_nil, List.append_nil]
  | cons p ps ih =>
    rw [readReply, if_neg (hne p List.mem_cons_self), if_neg (by simp),
      ih (fun q hq => hne q (List.mem_cons_of_mem p hq)) (Or.inl rfl), List.flatten_cons,
      List.append_assoc]

namespace RaftClient

/-- Whether `main` passes a line to `execute`. -/
def forwards (line : Bytes) : Bool := line ≠ [] && line.map toupper ≠ ascii "QUIT"

/-- `isLocal`: a line with a backslash in front. -/
def isLocal (line : Bytes) : Bool := line.head? = some 92

/-- What an attempt meets: the outcomes of its dials, whether the line is taken, and what is read. -/
structure Attempt where
  dials : List Bool
  sent : Bool
  pieces : List Bytes

/-- The loop of `execute`, with the tries that are left and what they meet. -/
def executeLoop (line : Bytes) : ℕ → (ℕ → Attempt) → RaftClient → Bytes × RaftClient
  | 0, _, c => (ascii "ERR: gave up after retries (no stable leader?)\n", c)
  | tries + 1, attempts, c =>
    match c.ensureConnected (attempts 0).dials with
    | (false, c) => (ascii "ERR: no server reachable\n", c)
    | (true, c) =>
      match sendOnce (attempts 0).sent (attempts 0).pieces (isLocal line) with
      | none => executeLoop line tries (fun n => attempts (n + 1)) c.afterFailure
      | some resp =>
        if isLocal line then (resp, c)
        else if retryable resp then
          executeLoop line tries (fun n => attempts (n + 1)) (c.afterAnswer resp)
        else (resp, c)

/-- `execute`. -/
def execute (c : RaftClient) (line : Bytes) (attempts : ℕ → Attempt) : Bytes × RaftClient :=
  executeLoop line maxTries attempts c

end RaftClient

end RaftConsensus
