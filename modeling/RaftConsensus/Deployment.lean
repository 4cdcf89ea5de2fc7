import RaftConsensus.Numerals
import RaftConsensus.Quorums

/-!
# From the command lines to the cluster

`run.sh` starts a node for each member, with its own id and ports and with the list of all others,
and the client with the list of all.  The lists are text: `id@host:port`, with commas between them
for a server, and as one argument each for the client.  `main` of the server reads its list token by
token, `parseSpec` of the client reads an argument.

* `parseSpec_eq_some`: client and server take the same texts, for the same servers.
* `parsePeer_spec`: what was written for a member is read as this member.
* `launched`: the nodes that `run.sh` starts are those that `Cluster` starts with, and the client
  knows the address of each of them.
-/

namespace RaftConsensus

/-! ## The arguments of the client (`cli/main.cpp`) -/

/-- `parseSpec`, with what it sets if it returns true. -/
def parseSpec (spec : Bytes) : Option Peer :=
  match spec.idxOf? 64 with
  | none => none
  | some at_ =>
    let id := strtoull (spec.take at_)
    let rest := spec.drop (at_ + 1)
    match rest.idxOf? 58 with
    | none => none
    | some colon =>
      let port := atoi (rest.drop (colon + 1))
      if id ≠ 0 ∧ 0 < port then some ⟨id, rest.take colon, port⟩ else none

/-- Why the client returns 1 before it connects. -/
inductive SpecRefusal
  | usage
  | invalid (spec : Bytes)
  deriving DecidableEq, Repr

/-- The loop over the arguments. -/
def readSpecs : List Bytes → Except SpecRefusal (List Peer)
  | [] => .ok []
  | spec :: specs =>
    match parseSpec spec with
    | none => .error (.invalid spec)
    | some server => (readSpecs specs).map (server :: ·)

/-- The servers that `main` of the client adds for its arguments. -/
def addServers : List Bytes → Except SpecRefusal (List Peer)
  | [] => .error .usage
  | [host, port] =>
    if 64 ∉ port ∧ 64 ∉ host then .ok [⟨0, host, atoi port⟩] else readSpecs [host, port]
  | specs => readSpecs specs

/-- **Client and server read a member alike**: they take the same texts, and find the same id, host
and port in them. -/
theorem parseSpec_eq_some {spec : Bytes} {p : Peer} :
    parseSpec spec = some p ↔ parsePeer spec = .ok p := by
  unfold parseSpec parsePeer
  cases spec.idxOf? 64 with
  | none => simp
  | some at_ =>
    dsimp only
    cases (spec.drop (at_ + 1)).idxOf? 58 with
    | none => simp
    | some colon =>
      dsimp only
      by_cases hid : strtoull (spec.take at_) = 0
      · simp [hid]
      by_cases hport : atoi ((spec.drop (at_ + 1)).drop (colon + 1)) ≤ 0
      · rw [if_neg (fun h => absurd h.2 (not_lt.mpr hport)), if_neg hid, if_pos hport]
        simp
      · rw [if_pos ⟨hid, not_le.mp hport⟩, if_neg hid, if_neg hport]
        simp

/-! ## What `run.sh` writes -/

/-- A member as `run.sh` knows it.  Ids and ports are positive and fit into an `int`, and a host is
no list and has no port. -/
structure Member where
  id : ℕ
  host : Bytes
  port : ℕ
  peerPort : ℕ
  dataDir : Bytes
  id_pos : 0 < id
  id_lt : id < 2 ^ 31
  port_pos : 0 < port
  port_lt : port < 2 ^ 31
  peerPort_pos : 0 < peerPort
  peerPort_lt : peerPort < 2 ^ 31
  no_comma : 44 ∉ host
  no_colon : 58 ∉ host

/-- `id@host:port`. -/
def memberSpec (id : ℕ) (host : Bytes) (port : ℕ) : Bytes :=
  ascii (toString id) ++ 64 :: (host ++ 58 :: ascii (toString port))

namespace Member

variable {m : Member} {ms : List Member}

/-- `peers_for`: a comma before each of the others, and the first comma dropped. -/
def peersFor (ms : List Member) (skip : ℕ) : Bytes :=
  ((ms.filter fun m => m.id ≠ skip).flatMap fun m =>
    44 :: memberSpec m.id m.host m.peerPort).drop 1

/-- The options of the node of a member. -/
def flags (ms : List Member) (m : Member) : List Flag :=
  [.id (ascii (toString m.id)), .port (ascii (toString m.port)),
    .peerPort (ascii (toString m.peerPort)), .data m.dataDir, .peers (peersFor ms m.id)]

/-- `CLIENT_SPECS`. -/
def clientSpecs (ms : List Member) : List Bytes := ms.map fun m => memberSpec m.id m.host m.port

end Member

/-! ## Reading it -/

theorem notMem_ascii_number {b : UInt8} (h : ¬ (48 ≤ b ∧ b ≤ 57)) (n : ℕ) :
    b ∉ ascii (toString n) := fun hb => h (digit_of_mem_ascii hb)

/-- **What was written for a member is read as this member.** -/
theorem parsePeer_spec {id port : ℕ} {host : Bytes} (hid : id ≠ 0) (hid' : id < 2 ^ 64)
    (hport : 0 < port) (hport' : port < 2 ^ 31) (hcolon : 58 ∉ host) :
    parsePeer (memberSpec id host port) = .ok ⟨id, host, port⟩ := by
  have hat := idxOf?_mark (notMem_ascii_number (b := 64) (by decide) id)
    (host ++ 58 :: ascii (toString port))
  have hrest : (memberSpec id host port).drop ((ascii (toString id)).length + 1) =
      host ++ 58 :: ascii (toString port) := by
    rw [memberSpec, ← List.drop_drop, List.drop_left, List.drop_succ_cons, List.drop_zero]
  have hend : (host ++ 58 :: ascii (toString port)).drop (host.length + 1) =
      ascii (toString port) := by
    rw [← List.drop_drop, List.drop_left, List.drop_succ_cons, List.drop_zero]
  rw [parsePeer, show (memberSpec id host port).idxOf? 64 = _ from hat]
  dsimp only
  rw [hrest, idxOf?_mark hcolon]
  dsimp only
  rw [hend, atoi_ascii hport', memberSpec, List.take_left, List.take_left, strtoull_ascii hid',
    if_neg hid, if_neg (by omega)]

/-- The commas before the tokens, without the first, are the commas between them. -/
theorem drop_flatMap_comma (tokens : List Bytes) :
    (tokens.flatMap fun token => 44 :: token).drop 1 = [44].intercalate tokens := by
  induction tokens with
  | nil => rfl
  | cons token tokens ih =>
    cases tokens with
    | nil => simp
    | cons next tokens =>
      rw [List.intercalate_cons_cons, ← ih]
      simp

/-- A list is cut into the tokens that it was made of. -/
theorem getlines_tokens {tokens : List Bytes} (hne : ∀ token ∈ tokens, token ≠ [])
    (hcomma : ∀ token ∈ tokens, 44 ∉ token) :
    getlines 44 ((tokens.flatMap fun token => 44 :: token).drop 1) = tokens := by
  rw [drop_flatMap_comma]
  rcases List.eq_nil_or_concat tokens with rfl | ⟨front, last, rfl⟩
  · rfl
  · rw [List.concat_eq_append] at hne hcomma ⊢
    rw [getlines, List.splitOn_intercalate 44 hcomma (by simp), List.getLast?_concat, if_neg]
    exact fun h => hne last (by simp) (Option.some.inj h)

namespace Member

variable {m : Member} {ms : List Member}

/-- A member as another node reads it. -/
def peer (m : Member) : Peer := ⟨m.id, m.host, m.peerPort⟩

/-- A member as the client reads it. -/
def server (m : Member) : Peer := ⟨m.id, m.host, m.port⟩

theorem parsePeers_map (ms : List Member) :
    parsePeers (ms.map fun m => memberSpec m.id m.host m.peerPort) = .ok (ms.map peer) := by
  induction ms with
  | nil => rfl
  | cons m ms ih =>
    rw [List.map_cons, parsePeers, parsePeer_spec m.id_pos.ne' (m.id_lt.trans (by decide))
      m.peerPort_pos m.peerPort_lt m.no_colon, ih]
    rfl

theorem readSpecs_map (ms : List Member) :
    readSpecs (clientSpecs ms) = .ok (ms.map server) := by
  induction ms with
  | nil => rfl
  | cons m ms ih =>
    have hm : parseSpec (memberSpec m.id m.host m.port) = some m.server :=
      parseSpec_eq_some.mpr (parsePeer_spec m.id_pos.ne' (m.id_lt.trans (by decide)) m.port_pos
        m.port_lt m.no_colon)
    rw [clientSpecs, List.map_cons, readSpecs, hm]
    dsimp only
    rw [show readSpecs (ms.map fun m => memberSpec m.id m.host m.port) = _ from ih]
    rfl

theorem getlines_peersFor (ms : List Member) (skip : ℕ) :
    getlines 44 (peersFor ms skip) =
      (ms.filter fun m => m.id ≠ skip).map fun m => memberSpec m.id m.host m.peerPort := by
  rw [peersFor, ← List.flatMap_map (f := fun m : Member => memberSpec m.id m.host m.peerPort)]
  refine getlines_tokens ?_ ?_
  · intro token htoken
    obtain ⟨m, -, rfl⟩ := List.mem_map.mp htoken
    simp [memberSpec]
  · intro token htoken
    obtain ⟨m, -, rfl⟩ := List.mem_map.mp htoken
    have hdigits : ∀ n, 44 ∉ ascii (toString n) := notMem_ascii_number (by decide)
    simp only [memberSpec, List.mem_append, List.mem_cons, not_or]
    exact ⟨hdigits _, by decide, m.no_comma, by decide, hdigits _⟩

/-- **What the node of a member is started with.** -/
theorem main_flags (ms : List Member) (m : Member) :
    main (m.flags ms) = .ok ⟨m.id, m.port, m.peerPort, m.dataDir,
      (ms.filter fun p => p.id ≠ m.id).map peer⟩ := by
  have hid : toUInt64 (m.id : ℤ) = m.id := by
    have := m.id_lt
    rw [toUInt64]
    omega
  have hnonzero : ¬ (m.id = 0 ∨ (m.port : ℤ) = 0 ∨ (m.peerPort : ℤ) = 0) := by
    have := m.id_pos
    have := m.port_pos
    have := m.peerPort_pos
    omega
  have hsettings : readFlags (m.flags ms) .initial =
      .ok ⟨m.id, m.port, m.peerPort, m.dataDir, peersFor ms m.id⟩ := by
    rw [flags]
    simp only [readFlags, atoi_ascii m.id_lt, atoi_ascii m.port_lt, atoi_ascii m.peerPort_lt, hid]
  rw [main, hsettings]
  show (if _ then _ else _) = _
  rw [if_neg hnonzero, getlines_peersFor, parsePeers_map]
  rfl

end Member

/-! ## The cluster -/

variable {ms : List Member}

/-- The members of a deployment. -/
def Member.config (ms : List Member) (h : (ms.map Member.id).Nodup) : Config :=
  .ofList (ms.map Member.id) h
    (by simp only [List.forall_mem_map]; exact fun m _ => m.id_pos.ne')
    (by simp only [List.forall_mem_map]; exact fun m _ => m.id_lt.trans (by decide))

/-- **What is started is the cluster**: for members with different ids, the nodes that `run.sh`
starts are those that the cluster starts with, each with the addresses of all others; and the client
gets the address of each of them. -/
theorem launched (hnodup : (ms.map Member.id).Nodup) :
    (∀ m ∈ ms, ∃ args, main (m.flags ms) = .ok args ∧
      args.peers = (ms.filter fun p => p.id ≠ m.id).map Member.peer ∧
      Node.start args.nodeId args.peerIds Files.none 0 =
        (Cluster.machine (Member.config ms hnodup)).init.hosts m.id) ∧
      (ms ≠ [] → addServers (Member.clientSpecs ms) = .ok (ms.map Member.server)) := by
  refine ⟨fun m _ => ⟨_, m.main_flags ms, rfl, ?_⟩, fun hne => ?_⟩
  · have hpeers : ((ms.filter fun p => p.id ≠ m.id).map Member.peer).map Peer.id =
        (Member.config ms hnodup).peers m.id := by
      show _ = (ms.map Member.id).filter fun j => j ≠ m.id
      rw [List.filter_map, List.map_map]
      rfl
    show Node.start m.id _ Files.none 0 = Node.start m.id _ Files.none 0
    rw [Startup.peerIds, hpeers]
  · rw [← Member.readSpecs_map]
    -- no argument of the client is a host or a port alone
    have hat : ∀ spec ∈ Member.clientSpecs ms, 64 ∈ spec := by
      intro spec hspec
      obtain ⟨m, -, rfl⟩ := List.mem_map.mp hspec
      simp [memberSpec]
    have hsome : Member.clientSpecs ms ≠ [] := by simpa [Member.clientSpecs] using hne
    generalize Member.clientSpecs ms = specs at hat hsome
    unfold addServers
    split
    · exact absurd rfl hsome
    · next host port => rw [if_neg fun h => h.1 (hat port (by simp))]
    · rfl

/-- The five members of `run.sh`. -/
def fiveMembers : List Member := [1, 2, 3, 4, 5].pmap
  (fun i (hi : 0 < i ∧ i ≤ 5) => ⟨i, ascii "127.0.0.1", 5000 + i, 6000 + i, ascii "d", hi.1,
    by omega, by omega, by omega, by omega, by omega, by decide +kernel, by decide +kernel⟩)
  (by decide)

/-- The list of the second of them. -/
example : Member.peersFor fiveMembers 2 = ascii
    "1@127.0.0.1:6001,3@127.0.0.1:6003,4@127.0.0.1:6004,5@127.0.0.1:6005" := by decide +kernel

/-- The cluster of `run.sh`. -/
theorem launched_five : ∃ h : (fiveMembers.map Member.id).Nodup,
    (∀ m ∈ fiveMembers, ∃ args, main (m.flags fiveMembers) = .ok args ∧
      args.peers = (fiveMembers.filter fun p => p.id ≠ m.id).map Member.peer ∧
      Node.start args.nodeId args.peerIds Files.none 0 =
        (Cluster.machine (Member.config fiveMembers h)).init.hosts m.id) ∧
      (fiveMembers ≠ [] →
        addServers (Member.clientSpecs fiveMembers) = .ok (fiveMembers.map Member.server)) :=
  ⟨by decide, launched (by decide)⟩

end RaftConsensus
