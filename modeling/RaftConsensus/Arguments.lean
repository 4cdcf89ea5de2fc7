import RaftConsensus.CommandLine

/-!
# The arguments of a server (`main.cpp`)

`main` goes through what `getopt_long` returns, the last value of an option winning, and then
through the tokens of `--peers`.  A token is `id@host:port`, and it is refused if it lacks the
`@` or the `:`, if the id is zero, or if the port is not positive.  Nothing else is checked: the
list may name an id twice, and it may name the node itself.

* `main`: the server that is built, or what is printed on a refusal.
* `main_eq_ok`: the ids that are accepted are not zero, and those of the peers have 64 bits.
-/

namespace RaftConsensus

/-! ## Numbers -/

/-- `strtol` to the base of ten: blanks, a sign, digits; numbers that are too large are cut. -/
def strtol (text : Bytes) : ℤ :=
  let text := text.dropWhile isSpace
  let (negative, digits) := match text with
    | 45 :: rest => (true, rest)
    | 43 :: rest => (false, rest)
    | rest => (false, rest)
  let n : ℕ :=
    (digits.takeWhile fun b => 48 ≤ b && b ≤ 57).foldl (fun n b => 10 * n + (b.toNat - 48)) 0
  if negative then max (-2 ^ 63) (-(n : ℤ)) else min (2 ^ 63 - 1) (n : ℤ)

/-- `atoi`: the 32 low bits of `strtol`. -/
def atoi (text : Bytes) : ℤ := (strtol text).bmod (2 ^ 32)

/-- A number stored in a `u_int64_t`. -/
def toUInt64 (n : ℤ) : ℕ := (n % 2 ^ 64).toNat

/-! ## Options -/

/-- What a call of `getopt_long` returns, with its `optarg`. -/
inductive Flag
  | id (optarg : Bytes)
  | port (optarg : Bytes)
  | peerPort (optarg : Bytes)
  | data (optarg : Bytes)
  | peers (optarg : Bytes)
  | help
  | unknown
  deriving DecidableEq, Repr

/-- The variables of `main` that the options set. -/
structure Settings where
  nodeId : ℕ
  port : ℤ
  peerPortArg : ℤ
  dataDir : Bytes
  peersStr : Bytes
  deriving DecidableEq, Repr

/-- Their values at first. -/
def Settings.initial : Settings := ⟨0, 0, 0, ascii "./data", []⟩

/-- Why `main` returns 1 before there is a server. -/
inductive Refusal
  /-- `--help`, or an option that is not known: only the usage is printed -/
  | usage
  | required
  | peerFormat (token : Bytes)
  | peerPort (token : Bytes)
  deriving DecidableEq, Repr

/-- What is printed, before the usage if that is printed too. -/
def Refusal.text : Refusal → Bytes
  | usage => []
  | required => ascii "Error: --id, --port, and --peer-port are all required.\n"
  | peerFormat token =>
    ascii "Invalid peer format (expected id@host:port): " ++ token ++ ascii "\n"
  | peerPort token => ascii "Invalid peer port: " ++ token ++ ascii "\n"

/-- The loop over the options. -/
def readFlags : List Flag → Settings → Except Refusal Settings
  | [], s => .ok s
  | .id optarg :: flags, s => readFlags flags { s with nodeId := toUInt64 (atoi optarg) }
  | .port optarg :: flags, s => readFlags flags { s with port := atoi optarg }
  | .peerPort optarg :: flags, s => readFlags flags { s with peerPortArg := atoi optarg }
  | .data optarg :: flags, s => readFlags flags { s with dataDir := optarg }
  | .peers optarg :: flags, s => readFlags flags { s with peersStr := optarg }
  | .help :: _, _ => .error .usage
  | .unknown :: _, _ => .error .usage

/-! ## The peers -/

/-- `struct Peer`. -/
structure Peer where
  id : ℕ
  host : Bytes
  port : ℤ
  deriving DecidableEq, Repr

/-- What `getline` reads, call after call: nothing is read after a delimiter at the very end. -/
def getlines (delim : UInt8) (text : Bytes) : List Bytes :=
  let tokens := text.splitOn delim
  if tokens.getLast? = some [] then tokens.dropLast else tokens

/-- One turn of the loop over the tokens. -/
def parsePeer (token : Bytes) : Except Refusal Peer :=
  match token.idxOf? 64 with
  | none => .error (.peerFormat token)
  | some at_ =>
    let pid := strtoull (token.take at_)
    let rest := token.drop (at_ + 1)
    match rest.idxOf? 58 with
    | none => .error (.peerFormat token)
    | some colon =>
      if pid = 0 then .error (.peerFormat token)
      else
        let pp := atoi (rest.drop (colon + 1))
        if pp ≤ 0 then .error (.peerPort token) else .ok ⟨pid, rest.take colon, pp⟩

theorem strtoull_lt (text : Bytes) : strtoull text < 2 ^ 64 := by
  have hcut (n : ℕ) (negative : Bool) : (if 2 ^ 64 ≤ n then 2 ^ 64 - 1
      else if negative then (2 ^ 64 - n) % 2 ^ 64 else n) < 2 ^ 64 := by
    split
    · norm_num
    · split
      · exact Nat.mod_lt _ (by norm_num)
      · omega
  exact hcut _ _

/-- A peer that is not refused has an id and a port. -/
theorem parsePeer_eq_ok {token : Bytes} {p : Peer} (h : parsePeer token = .ok p) :
    p.id ≠ 0 ∧ p.id < 2 ^ 64 ∧ 0 < p.port := by
  unfold parsePeer at h
  split at h
  · exact absurd h (by simp)
  dsimp only at h
  split at h
  · exact absurd h (by simp)
  split at h
  · exact absurd h (by simp)
  next hid =>
  split at h
  · exact absurd h (by simp)
  next hport =>
  obtain rfl := Except.ok.inj h
  exact ⟨hid, strtoull_lt _, not_le.mp hport⟩

/-- The loop over the tokens. -/
def parsePeers : List Bytes → Except Refusal (List Peer)
  | [] => .ok []
  | token :: tokens => do
    let peer ← parsePeer token
    let peers ← parsePeers tokens
    return peer :: peers

/-- What comes after a refusal is not reached. -/
theorem eq_ok_of_bind {α β : Type} {x : Except Refusal α} {f : α → Except Refusal β} {b : β}
    (h : x >>= f = .ok b) : ∃ a, x = .ok a ∧ f a = .ok b := by
  cases x with
  | error e => exact absurd h (by simp [bind, Except.bind])
  | ok a => exact ⟨a, rfl, h⟩

theorem parsePeers_eq_ok {tokens : List Bytes} {ps : List Peer} (h : parsePeers tokens = .ok ps) :
    ∀ p ∈ ps, p.id ≠ 0 ∧ p.id < 2 ^ 64 ∧ 0 < p.port := by
  induction tokens generalizing ps with
  | nil =>
    obtain rfl := Except.ok.inj h
    simp
  | cons token tokens ih =>
    obtain ⟨p, hp, h⟩ := eq_ok_of_bind h
    obtain ⟨ps', hps, h⟩ := eq_ok_of_bind h
    obtain rfl := Except.ok.inj h
    intro q hq
    rcases List.mem_cons.mp hq with rfl | hq
    · exact parsePeer_eq_ok hp
    · exact ih hps q hq

/-! ## `main` -/

/-- What the server is built with. -/
structure Startup where
  nodeId : ℕ
  port : ℤ
  peerPort : ℤ
  dataDir : Bytes
  peers : List Peer
  deriving DecidableEq, Repr

/-- `main` up to the server. -/
def main (flags : List Flag) : Except Refusal Startup := do
  let s ← readFlags flags .initial
  if s.nodeId = 0 ∨ s.port = 0 ∨ s.peerPortArg = 0 then .error .required
  else
    let peers ← parsePeers (getlines 44 s.peersStr)
    return ⟨s.nodeId, s.port, s.peerPortArg, s.dataDir, peers⟩

/-- **What `main` has checked** of the ids and the ports. -/
theorem main_eq_ok {flags : List Flag} {args : Startup} (h : main flags = .ok args) :
    args.nodeId ≠ 0 ∧ args.port ≠ 0 ∧ args.peerPort ≠ 0 ∧
      ∀ p ∈ args.peers, p.id ≠ 0 ∧ p.id < 2 ^ 64 ∧ 0 < p.port := by
  obtain ⟨s, -, h⟩ := eq_ok_of_bind h
  split at h
  · exact absurd h (by simp)
  next hset =>
  obtain ⟨hid, hset⟩ := not_or.mp hset
  obtain ⟨hport, hpeer⟩ := not_or.mp hset
  obtain ⟨ps, hps, h⟩ := eq_ok_of_bind h
  obtain rfl := Except.ok.inj h
  exact ⟨hid, hport, hpeer, parsePeers_eq_ok hps⟩

end RaftConsensus
