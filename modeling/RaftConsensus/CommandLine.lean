import RaftConsensus.RaftClient
import Mathlib.Data.List.DropRight
import Mathlib.Data.List.Lex
import Mathlib.Data.List.Sort
import Mathlib.Data.Prod.Lex

/-!
# The lines of a client (`handleCommand`)

A client sends lines of text.  `handleCommand` cuts the line end off, reads words with `>>` of an
`istringstream`, and takes one of a few ways: it proposes a request, prints something about this
node, or complains.  `branch` is the choice, and `handleCommand` is what the client gets to
read.

A proposal makes the thread wait, and the server that answers is not the one that took the line.
`Moment` has both, with the order in which `getAll` happens to go through the hash map.

* `KVStateMachine.Accepted`: the contents that client lines can bring about.
* `KVStateMachine.Accepted.isWord`: their keys and values are words.
-/

namespace RaftConsensus

/-! ## Texts -/

theorem toList_loop (bs : ByteArray) (i : ℕ) (r : List UInt8) :
    ByteArray.toList.loop bs i r = r.reverse ++ bs.data.toList.drop i := by
  induction i, r using ByteArray.toList.loop.induct bs with
  | case1 i r h ih =>
    have hi : i < bs.data.toList.length := h
    rw [ByteArray.toList.loop, if_pos h, ih, List.reverse_cons, List.append_assoc,
      List.singleton_append, List.drop_eq_getElem_cons hi]
    congr 2
    exact getElem!_pos bs.data i h
  | case2 i r h =>
    have hi : bs.data.toList.length ≤ i := Nat.le_of_not_lt h
    rw [ByteArray.toList.loop, if_neg h, List.drop_eq_nil_of_le hi, List.append_nil]

/-- The bytes of a text, character by character. -/
theorem ascii_eq_flatMap (s : String) : ascii s = s.toList.flatMap String.utf8EncodeChar := by
  rw [ascii, ByteArray.toList, toList_loop, List.drop_zero, List.reverse_nil, List.nil_append,
    String.toUTF8_eq_toByteArray, ← String.utf8Encode_toList, List.utf8Encode,
    List.toList_data_toByteArray]

theorem ascii_append (s t : String) : ascii (s ++ t) = ascii s ++ ascii t := by
  rw [ascii_eq_flatMap, ascii_eq_flatMap, ascii_eq_flatMap, String.toList_append,
    List.flatMap_append]

/-- A number is printed with digits. -/
theorem digit_of_mem_ascii {n : ℕ} {b : UInt8} (hb : b ∈ ascii (toString n)) : 48 ≤ b ∧ b ≤ 57 := by
  rw [ascii_eq_flatMap, List.mem_flatMap] at hb
  obtain ⟨c, hc, hb⟩ := hb
  rw [Nat.toString_eq_ofList_toDigits, String.toList_ofList] at hc
  obtain ⟨hlow, hhigh⟩ := Char.isDigit_iff_toNat.mp
    (Nat.isDigit_of_mem_toDigits (by decide) (by decide) hc)
  have hlow : 48 ≤ c.val.toNat := hlow
  have hhigh : c.val.toNat ≤ 57 := hhigh
  have hsize : c.utf8Size = 1 := by
    have hle : c.val.toNat ≤ 127 := hhigh.trans (by decide)
    exact if_pos (UInt32.le_iff_toNat_le.mpr hle)
  rw [String.utf8EncodeChar_eq_singleton hsize, List.mem_singleton] at hb
  have hnat : b.toNat = c.val.toNat := by
    rw [hb, UInt32.toNat_toUInt8]
    omega
  exact ⟨UInt8.le_iff_toNat_le.mpr (by simpa [hnat] using hlow),
    UInt8.le_iff_toNat_le.mpr (by simpa [hnat] using hhigh)⟩

theorem newline_notMem_number (n : ℕ) : 10 ∉ ascii (toString n) :=
  fun h => absurd (digit_of_mem_ascii h).1 (by decide)

/-- One line, with its end. -/
def IsLine (text : Bytes) : Prop := ∃ l, 10 ∉ l ∧ text = l ++ [10]

theorem ascii_newline : ascii "\n" = [10] := by decide +kernel

theorem isLine_append {l : Bytes} (h : 10 ∉ l) : IsLine (l ++ ascii "\n") :=
  ⟨l, h, by rw [ascii_newline]⟩

/-! ## Words -/

/-- `isspace`. -/
def isSpace (b : UInt8) : Bool := b = 32 || (9 ≤ b && b ≤ 13)

/-- `toupper`. -/
def toupper (b : UInt8) : UInt8 := if 97 ≤ b ∧ b ≤ 122 then b - 32 else b

/-- `iss >> word`: the next word, empty if there is none, and what is left to be read. -/
def extract (iss : Bytes) : Bytes × Bytes :=
  let text := iss.dropWhile isSpace
  (text.takeWhile fun b => !isSpace b, text.dropWhile fun b => !isSpace b)

/-- What `>>` reads when it reads something. -/
structure IsWord (w : Bytes) : Prop where
  ne_nil : w ≠ []
  free : ∀ b ∈ w, isSpace b = false

theorem IsWord.newline_notMem {w : Bytes} (h : IsWord w) : 10 ∉ w :=
  fun hb => absurd (h.free 10 hb) (by decide)

theorem isSpace_of_mem_extract {iss : Bytes} {b : UInt8} (hb : b ∈ (extract iss).1) :
    isSpace b = false := by
  have := List.mem_takeWhile_imp hb
  simpa using this

theorem isWord_extract {iss : Bytes} (h : (extract iss).1 ≠ []) : IsWord (extract iss).1 :=
  ⟨h, fun _ => isSpace_of_mem_extract⟩

/-- A word is read up to the space behind it. -/
theorem extract_of_isWord {w rest : Bytes} (hw : IsWord w) (hrest : ∀ b ∈ rest.head?, isSpace b = true) :
    extract (w ++ rest) = (w, rest) := by
  have htake : ∀ b ∈ w, (fun b => !isSpace b) b = true := fun b hb => by simp [hw.free b hb]
  have hstop : rest.takeWhile (fun b => !isSpace b) = [] ∧ rest.dropWhile (fun b => !isSpace b) = rest := by
    cases rest with
    | nil => exact ⟨rfl, rfl⟩
    | cons b rest =>
      have hb : isSpace b = true := hrest b (by simp)
      exact ⟨by simp [hb], by simp [hb]⟩
  have hfirst : (w ++ rest).dropWhile isSpace = w ++ rest := by
    cases w with
    | nil => exact absurd rfl hw.ne_nil
    | cons b w => simp [hw.free b List.mem_cons_self]
  rw [extract, hfirst, List.takeWhile_append_of_pos htake, List.dropWhile_append_of_pos htake,
    hstop.1, hstop.2, List.append_nil]

/-- Spaces in front of a word are skipped. -/
theorem extract_space {b : UInt8} (hb : isSpace b = true) (iss : Bytes) :
    extract (b :: iss) = extract iss := by
  rw [extract, List.dropWhile_cons_of_pos hb, extract]

/-! ## What a line asks for -/

/-- The ways through `handleCommand`. -/
inductive Branch
  | empty
  | error (text : Bytes)
  | propose (request : Request)
  | status
  | dump
  | hash
  | quit
  deriving DecidableEq, Repr

/-- The line without the line end, as `handleCommand` cuts it off. -/
def trim (line : Bytes) : Bytes := line.rdropWhile fun b => b = 10 || b = 13

/-- Which way `handleCommand` takes. -/
def branch (line : Bytes) : Branch :=
  let trimmed := trim line
  if trimmed = [] then .empty
  else
    let (cmd, iss) := extract trimmed
    let up := cmd.map toupper
    if up = ascii "PUT" then
      let (k, iss) := extract iss
      let (v, _) := extract iss
      if k = [] then .error (ascii "ERR: PUT requires key and value\n")
      else if v = [] then .error (ascii "ERR: PUT requires a value\n")
      else .propose (.put k v)
    else if up = ascii "GET" then
      let (k, _) := extract iss
      if k = [] then .error (ascii "ERR: GET requires a key\n") else .propose (.get k)
    else if up = ascii "DELETE" then
      let (k, _) := extract iss
      if k = [] then .error (ascii "ERR: DELETE requires a key\n") else .propose (.delete k)
    else if trimmed = ascii "\\status" then .status
    else if trimmed = ascii "\\dump" then .dump
    else if trimmed = ascii "\\hash" then .hash
    else if up = ascii "QUIT" then .quit
    else .error (ascii "ERR: unknown command '" ++ cmd ++ ascii "'\n")

/-- The keys and values of a request. -/
def Request.words : Request → List Bytes
  | put key value => [key, value]
  | delete key | get key => [key]

/-- **What a way tells about the line.** -/
inductive Way (line : Bytes) : Branch → Prop
  | empty (h : trim line = []) : Way line .empty
  | error (text : Bytes) (h : trim line ≠ []) (htext : IsLine text) : Way line (.error text)
  | propose (request : Request) (h : trim line ≠ []) (hwords : ∀ w ∈ request.words, IsWord w) :
      Way line (.propose request)
  | status (h : trim line = ascii "\\status") : Way line .status
  | dump (h : trim line = ascii "\\dump") : Way line .dump
  | hash (h : trim line = ascii "\\hash") : Way line .hash
  | quit (h : trim line ≠ []) : Way line .quit

theorem branch_way (line : Bytes) : Way line (branch line) := by
  unfold branch
  dsimp only
  split
  · next h => exact .empty h
  next h =>
  split
  · split
    · exact .error _ h ⟨ascii "ERR: PUT requires key and value", by decide +kernel, by decide +kernel⟩
    next hk =>
    split
    · exact .error _ h ⟨ascii "ERR: PUT requires a value", by decide +kernel, by decide +kernel⟩
    · next hv =>
      refine .propose _ h fun w hw => ?_
      rcases List.mem_pair.mp hw with rfl | rfl
      · exact isWord_extract hk
      · exact isWord_extract hv
  split
  · split
    · exact .error _ h ⟨ascii "ERR: GET requires a key", by decide +kernel, by decide +kernel⟩
    · next hk =>
      refine .propose _ h fun w hw => ?_
      rw [List.mem_singleton.mp hw]
      exact isWord_extract hk
  split
  · split
    · exact .error _ h ⟨ascii "ERR: DELETE requires a key", by decide +kernel, by decide +kernel⟩
    · next hk =>
      refine .propose _ h fun w hw => ?_
      rw [List.mem_singleton.mp hw]
      exact isWord_extract hk
  split
  · next htrim => exact .status htrim
  split
  · next htrim => exact .dump htrim
  split
  · next htrim => exact .hash htrim
  split
  · exact .quit h
  · refine .error _ h ⟨ascii "ERR: unknown command '" ++ (extract (trim line)).1 ++ ascii "'", ?_, ?_⟩
    · simp only [List.mem_append, not_or]
      refine ⟨⟨by decide +kernel, fun hmem => ?_⟩, by decide +kernel⟩
      exact absurd (isSpace_of_mem_extract hmem) (by decide)
    · have hend : ascii "'\n" = ascii "'" ++ [10] := by decide +kernel
      rw [hend, List.append_assoc, List.append_assoc, List.append_assoc]

/-- Only words are proposed. -/
theorem isWord_of_branch {line : Bytes} {request : Request} (h : branch line = .propose request) :
    ∀ w ∈ request.words, IsWord w := by
  have hway := branch_way line
  rw [h] at hway
  cases hway with
  | propose _ _ hwords => exact hwords

/-! ## The answers -/

/-- `roleToString`. -/
def Role.text : Role → Bytes
  | follower => ascii "FOLLOWER"
  | candidate => ascii "CANDIDATE"
  | leader => ascii "LEADER"

/-- A line of `handleStatus`. -/
def statusLine (label : String) (value : Bytes) : Bytes := ascii label ++ value ++ ascii "\n"

/-- `handleStatus`. -/
def handleStatus (s : Server) : Bytes :=
  statusLine "node_id:      " (ascii (toString s.nodeId)) ++
  statusLine "state:        " s.role.text ++
  statusLine "term:         " (ascii (toString s.metadata.currentTerm)) ++
  statusLine "leader:       "
    (if s.currentLeaderId = 0 then ascii "unknown" else ascii (toString s.currentLeaderId)) ++
  statusLine "commitIndex:  " (ascii (toString s.metadata.commitIndex)) ++
  statusLine "lastApplied:  " (ascii (toString s.metadata.lastApplied)) ++
  statusLine "log length:   " (ascii (toString s.logEntries.length)) ++
  if s.role = .leader then
    ascii "peers:\n" ++ s.peers.flatMap fun p =>
      statusLine "  node " (ascii (toString p) ++
        ascii ": matchIndex=" ++ ascii (toString (s.matchIndex p)) ++
        ascii ", nextIndex=" ++ ascii (toString (s.nextIndex p)) ++
        ascii ", " ++ ascii (if s.peerUp p then "up" else "down"))
  else []

/-- What `operator<` of a pair of strings compares. -/
def pairKey (p : Bytes × Bytes) : List ℕ ×ₗ List ℕ :=
  toLex (p.1.map UInt8.toNat, p.2.map UInt8.toNat)

/-- `std::sort` of the pairs. -/
def sortPairs (all : List (Bytes × Bytes)) : List (Bytes × Bytes) :=
  all.insertionSort fun p q => pairKey p ≤ pairKey q

/-- A line for each pair, in the order of the keys: the text that `handleHash` digests. -/
def render (all : List (Bytes × Bytes)) : Bytes :=
  (sortPairs all).flatMap fun p => p.1 ++ ascii "=" ++ p.2 ++ ascii "\n"

/-- `handleDump`, which goes through the map in the given order. -/
def handleDump (all : List (Bytes × Bytes)) : Bytes :=
  render all ++ ascii ("__count__=" ++ toString all.length ++ "\n")

/-- `handleHash`. -/
def handleHash (all : List (Bytes × Bytes)) : Bytes :=
  ascii ("count=" ++ toString all.length ++ " hash=" ++ toString (computeCRC32 (render all)).toNat ++
    "\n")

/-! ## State machines -/

namespace KVStateMachine

/-- The pairs of the map, in some order. -/
def pairs (m : KVStateMachine) : List (Bytes × Bytes) := m.store.entries.map fun p => (p.1, p.2)

/-- What can be reached by applying commands that `handleCommand` accepts. -/
inductive Accepted : KVStateMachine → Prop
  | empty : Accepted .empty
  | apply {m : KVStateMachine} {line : Bytes} {request : Request} (hm : Accepted m)
      (hline : branch line = .propose request) : Accepted (m.apply request.command)

variable {m : KVStateMachine} {k v : Bytes}

theorem mem_pairs : (k, v) ∈ m.pairs ↔ m.store.lookup k = some v := by
  rw [pairs, List.mem_map]
  constructor
  · rintro ⟨⟨k', v'⟩, hp, heq⟩
    obtain ⟨rfl, rfl⟩ := Prod.mk.inj heq
    exact AList.mem_lookup_iff.mpr hp
  · intro h
    exact ⟨⟨k, v⟩, AList.mem_lookup_iff.mp h, rfl⟩

/-- **Keys and values are words.** -/
theorem Accepted.isWord (h : Accepted m) : ∀ {k v}, m.store.lookup k = some v → IsWord k ∧ IsWord v := by
  induction h with
  | empty =>
    intro k v hkv
    exact absurd hkv (by simp [KVStateMachine.empty])
  | @apply m line request hm hline ih =>
    intro k v hkv
    have hwords := isWord_of_branch hline
    cases request with
    | put key value =>
      by_cases hk : k = key
      · subst hk
        have hv : value = v := by simpa [KVStateMachine.apply, Request.command] using hkv
        subst hv
        exact ⟨hwords k (by simp [Request.words]), hwords value (by simp [Request.words])⟩
      · have hold : m.store.lookup k = some v := by
          simpa [KVStateMachine.apply, Request.command, AList.lookup_insert_ne hk] using hkv
        exact ih hold
    | delete key =>
      by_cases hk : k = key
      · subst hk
        exact absurd hkv (by simp [KVStateMachine.apply, Request.command])
      · have hold : m.store.lookup k = some v := by
          simpa [KVStateMachine.apply, Request.command, AList.lookup_erase_ne hk] using hkv
        exact ih hold
    | get key => exact ih (by simpa [KVStateMachine.apply, Request.command] using hkv)

end KVStateMachine

/-! ## `handleCommand` -/

/-- The server while it handles a line: as the line comes in, and as it is when the wait of
`proposeAndWait` is over. -/
structure Moment where
  server : Server
  /-- the order in which `getAll` is gone through -/
  all : List (Bytes × Bytes)
  all_perm : all.Perm server.stateMachine.pairs
  later : Server
  accepted : later.stateMachine.Accepted

/-- `handleCommand`. -/
def handleCommand (m : Moment) (line : Bytes) : Bytes :=
  match branch line with
  | .empty => []
  | .error text => text
  | .propose request =>
    match m.server.propose request with
    | none => m.server.notLeaderMsg.text
    | some (w, _) => (m.later.answer w).text
  | .status => handleStatus m.server
  | .dump => handleDump m.all
  | .hash => handleHash m.all
  | .quit => ascii "QUIT"

/-- **What a client reads is what its thread says**: the text of a refusal, or of the answer to the
proposal that the section has made. -/
theorem handleCommand_of_handle {m : Moment} {line : Bytes} {request : Request}
    (hline : branch line = .propose request) {n n' : Node} (hserver : n.server = m.server)
    {os : List Output} (h : n.handle (.propose request) = some (n', os)) :
    (∀ a, .refused request a ∈ os → handleCommand m line = a.text) ∧
      ∀ w, .proposed w ∈ os → handleCommand m line = (m.later.answer w).text := by
  rw [handleCommand, hline]
  dsimp only
  rw [← hserver]
  cases Node.handle_section h with
  | refused _ hp =>
    rw [hp]
    refine ⟨fun a ha => ?_, fun w hw => absurd hw (by simp)⟩
    obtain ⟨-, rfl⟩ := Output.refused.inj (List.mem_singleton.mp ha)
    rfl
  | proposed _ w s hp =>
    rw [hp]
    refine ⟨fun a ha => absurd ha (by simp), fun w' hw' => ?_⟩
    obtain rfl := Output.proposed.inj (List.mem_singleton.mp hw')
    rfl
  | atOnce _ w s hp =>
    rw [hp]
    refine ⟨fun a ha => absurd ha (by simp), fun w' hw' => ?_⟩
    obtain rfl : w' = w := by simpa using hw'
    rfl

end RaftConsensus
