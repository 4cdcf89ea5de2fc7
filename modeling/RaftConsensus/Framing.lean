import RaftConsensus.Library.PrefixCode
import RaftConsensus.Library.Streams
import RaftConsensus.PeerInput

/-!
# RPCs on a stream (`sendRpc`, `recvRpc`)

An RPC goes over a connection as a header of five bytes, the type and the length of the body, and the
body.  `sendAll` and `recvAll` loop until all is sent or received; the calls of `send` and `recv` that
they meet may do a part only, or be interrupted.

The frames are a prefix code, so a stream has a longest run of them at its start (`frameCode`).  That
run is what successive calls of `recvRpc` return, one after the other, and the next call fails.

* `recvRpcs_eq`: this, for every stream and every schedule.
* `sendRpcs_complete`: calls of `send` that take a part or are interrupted do not stop a sender.
* `rpcs_received`: of the RPCs that were sent, those arrive that arrive completely.
-/

namespace RaftConsensus

/-! ## Frames -/

/-- The number of a type. -/
def RpcType.code : RpcType → UInt8
  | requestVoteArgs => 1
  | requestVoteReply => 2
  | appendEntriesArgs => 3
  | appendEntriesReply => 4

/-- The type of a number; others are ignored by the receiver. -/
def RpcType.ofCode? (code : UInt8) : Option RpcType :=
  [requestVoteArgs, requestVoteReply, appendEntriesArgs, appendEntriesReply].find? fun type =>
    type.code = code

theorem RpcType.ofCode?_code (type : RpcType) : ofCode? type.code = some type := by
  cases type <;> rfl

/-- `serializeRpcHeader`. -/
def serializeRpcHeader (type : UInt8) (bodyLen : ℕ) : Bytes := type :: bigEndian 4 bodyLen

/-- `deserializeRpcHeader`. -/
def deserializeRpcHeader (data : Bytes) : UInt8 × ℕ :=
  (data.headD 0, ofBigEndian ((data.drop 1).take 4))

/-- An RPC as `recvRpc` returns it. -/
def numbered (rpc : RpcType × Bytes) : UInt8 × Bytes := (rpc.1.code, rpc.2)

/-- A type and a body, as they stand on the wire. -/
def frame (rpc : UInt8 × Bytes) : Bytes := serializeRpcHeader rpc.1 rpc.2.length ++ rpc.2

theorem length_serializeRpcHeader (type : UInt8) (n : ℕ) :
    (serializeRpcHeader type n).length = 5 := by simp [serializeRpcHeader]

theorem deserializeRpcHeader_serializeRpcHeader (type : UInt8) {n : ℕ} (h : n < 2 ^ 32) :
    deserializeRpcHeader (serializeRpcHeader type n) = (type, n) := by
  have htake : (bigEndian 4 n).take 4 = bigEndian 4 n := List.take_of_length_le (by simp)
  rw [deserializeRpcHeader, serializeRpcHeader, List.headD_cons, List.drop_succ_cons, List.drop_zero,
    htake, ofBigEndian_bigEndian_of_lt h]

/-- **The code of the frames.** -/
def frameCode : PrefixCode (UInt8 × Bytes) UInt8 where
  Valid rpc := rpc.2.length < 2 ^ 32
  word := frame
  word_ne_nil _ := by simp [frame, serializeRpcHeader]
  word_unique := by
    rintro ⟨type, body⟩ ⟨type', body'⟩ l ha hb ⟨rest, rfl⟩ ⟨rest', h⟩
    rw [frame, frame, List.append_assoc, List.append_assoc] at h
    obtain ⟨hheader, hbody⟩ := List.append_inj h (by simp [length_serializeRpcHeader])
    have hfields := deserializeRpcHeader_serializeRpcHeader type ha
    rw [← hheader, deserializeRpcHeader_serializeRpcHeader type' hb] at hfields
    obtain ⟨rfl, hlen⟩ := Prod.mk.inj hfields
    exact congrArg _ (List.append_inj hbody hlen).1.symm

/-! ## Sending -/

/-- What a call of `send` returns. -/
inductive Send
  | fault (f : Fault)
  | accepted (n : ℕ)
  deriving DecidableEq, Repr

/-- The faults that `sendAll` and `recvAll` survive. -/
def retried (f : Fault) : Bool := f = .interrupted

/-- `sendAll`: whether all is sent, what the connection has taken, and the calls that are left. -/
def sendAll : List Send → Bytes → Bool × Bytes × List Send
  | calls, [] => (true, [], calls)
  | [], _ :: _ => (false, [], [])
  | .fault f :: calls, b :: data =>
    if retried f then sendAll calls (b :: data) else (false, [], calls)
  | .accepted n :: calls, b :: data =>
    if n = 0 then (false, [], calls)
    else
      let r := sendAll calls ((b :: data).drop n)
      (r.1, (b :: data).take n ++ r.2.1, r.2.2)

/-- `sendRpc`. -/
def sendRpc (calls : List Send) (type : RpcType) (body : Bytes) : Bool × Bytes × List Send :=
  let header := serializeRpcHeader type.code (body.length % 2 ^ 32)
  match sendAll calls header with
  | (false, sent, calls) => (false, sent, calls)
  | (true, sent, calls) =>
    if body = [] then (true, sent, calls)
    else
      let r := sendAll calls body
      (r.1, sent ++ r.2.1, r.2.2)

/-- Calls of `sendRpc` on one connection, up to one that fails. -/
def sendRpcs : List Send → List (RpcType × Bytes) → Bool × Bytes
  | _, [] => (true, [])
  | calls, (type, body) :: rpcs =>
    match sendRpc calls type body with
    | (false, sent, _) => (false, sent)
    | (true, sent, calls) =>
      let r := sendRpcs calls rpcs
      (r.1, sent ++ r.2)

/-! ## Receiving -/

/-- `recvAll`, with the calls that are left; what a call has brought too much stays in the socket. -/
def recvAll : List (Recv UInt8) → ℕ → Option (Bytes × List (Recv UInt8))
  | calls, 0 => some ([], calls)
  | [], _ + 1 => none
  | .fault f :: calls, n + 1 => if retried f then recvAll calls (n + 1) else none
  | .received bytes :: calls, n + 1 =>
    if bytes = [] then none
    else if n + 1 < bytes.length then
      some (bytes.take (n + 1), .received (bytes.drop (n + 1)) :: calls)
    else (recvAll calls (n + 1 - bytes.length)).map fun r => (bytes ++ r.1, r.2)

/-- `recvRpc`. -/
def recvRpc (calls : List (Recv UInt8)) : Option ((UInt8 × Bytes) × List (Recv UInt8)) :=
  (recvAll calls 5).bind fun r =>
    let h := deserializeRpcHeader r.1
    if 0 < h.2 then (recvAll r.2 h.2).map fun r' => ((h.1, r'.1), r'.2)
    else some ((h.1, []), r.2)

/-- Calls of `recvRpc` on one connection, `n` of them, or up to one that fails. -/
def recvRpcs : ℕ → List (Recv UInt8) → List (UInt8 × Bytes)
  | 0, _ => []
  | n + 1, calls =>
    match recvRpc calls with
    | none => []
    | some (rpc, calls) => rpc :: recvRpcs n calls

/-- `handlePeerConnection`: one RPC is received and handled, or none is. -/
def Server.servePeer (s : Server) (calls : List (Recv UInt8)) : Option (Server × List Output) :=
  match recvRpc calls with
  | none => some (s, [])
  | some ((code, body), _) =>
    match RpcType.ofCode? code with
    | none => some (s, [])
    | some type => s.handlePeerConnection type body

/-! ## What arrives -/

/-- **`recvAll` reads the stream**: what was asked for, and the rest stays. -/
theorem recvAll_of_le {calls : List (Recv UInt8)} {n : ℕ} (h : n ≤ (arrived retried calls).length) :
    ∃ calls', recvAll calls n = some ((arrived retried calls).take n, calls') ∧
      arrived retried calls' = (arrived retried calls).drop n := by
  induction calls generalizing n with
  | nil =>
    obtain rfl : n = 0 := Nat.le_zero.mp h
    exact ⟨[], rfl, rfl⟩
  | cons c calls ih =>
    rcases n with _ | n
    · exact ⟨c :: calls, rfl, rfl⟩
    cases c with
    | fault f =>
      by_cases hf : retried f = true
      · rw [arrived_again hf] at h ⊢
        rw [recvAll, if_pos hf]
        exact ih h
      · rw [arrived_fault (Bool.eq_false_iff.mpr hf)] at h
        exact absurd h (by simp)
    | received bytes =>
      by_cases hnil : bytes = []
      · rw [hnil, arrived_end] at h
        exact absurd h (by simp)
      rw [arrived_received hnil] at h ⊢
      rw [recvAll, if_neg hnil]
      by_cases hmore : n + 1 < bytes.length
      · have hleft : bytes.drop (n + 1) ≠ [] := by
          rw [Ne, List.drop_eq_nil_iff]
          omega
        rw [if_pos hmore, List.take_append_of_le_length hmore.le,
          List.drop_append_of_le_length hmore.le]
        exact ⟨_, rfl, arrived_received hleft calls⟩
      · rw [List.length_append] at h
        obtain ⟨calls', hrest, hleft⟩ := ih (n := n + 1 - bytes.length) (by omega)
        have htake : bytes.take (n + 1) = bytes := List.take_of_length_le (by omega)
        have hdrop : bytes.drop (n + 1) = [] := List.drop_eq_nil_of_le (by omega)
        rw [if_neg hmore, hrest, Option.map_some, List.take_append, List.drop_append, htake, hdrop,
          List.nil_append]
        exact ⟨calls', rfl, hleft⟩

/-- A stream that ends before is not enough. -/
theorem recvAll_of_lt {calls : List (Recv UInt8)} {n : ℕ} (h : (arrived retried calls).length < n) :
    recvAll calls n = none := by
  induction calls generalizing n with
  | nil =>
    rcases n with _ | n
    · exact absurd h (by simp)
    · rfl
  | cons c calls ih =>
    rcases n with _ | n
    · exact absurd h (by simp)
    cases c with
    | fault f =>
      rw [recvAll]
      split
      · next hf =>
        rw [arrived_again hf] at h
        exact ih h
      · rfl
    | received bytes =>
      rw [recvAll]
      split
      · rfl
      next hnil =>
      rw [arrived_received hnil, List.length_append] at h
      rw [if_neg (by omega), ih (by omega), Option.map_none]

/-- **A frame is received**, whatever comes behind it. -/
theorem recvRpc_frame {calls : List (Recv UInt8)} {rpc : UInt8 × Bytes} (hrpc : frameCode.Valid rpc)
    {rest : Bytes} (h : arrived retried calls = frame rpc ++ rest) :
    ∃ calls', recvRpc calls = some (rpc, calls') ∧ arrived retried calls' = rest := by
  obtain ⟨type, body⟩ := rpc
  have h : arrived retried calls = serializeRpcHeader type body.length ++ (body ++ rest) := by
    rw [h, frame, List.append_assoc]
  have hheader := length_serializeRpcHeader type body.length
  have hfive : 5 ≤ (arrived retried calls).length := by
    rw [h, List.length_append, hheader]
    omega
  obtain ⟨calls₁, hrecv, hleft⟩ := recvAll_of_le hfive
  rw [h, List.take_left' hheader] at hrecv
  rw [h, List.drop_left' hheader] at hleft
  rw [recvRpc, hrecv, Option.bind_some]
  dsimp only
  rw [deserializeRpcHeader_serializeRpcHeader type hrpc]
  dsimp only
  split
  · have hbody : body.length ≤ (arrived retried calls₁).length := by
      rw [hleft, List.length_append]
      omega
    obtain ⟨calls₂, hrecv', hleft'⟩ := recvAll_of_le hbody
    rw [hleft, List.take_left' rfl] at hrecv'
    rw [hleft, List.drop_left' rfl] at hleft'
    rw [hrecv', Option.map_some]
    exact ⟨calls₂, rfl, hleft'⟩
  · next hempty =>
    obtain rfl : body = [] := List.length_eq_zero_iff.mp (Nat.eq_zero_of_not_pos hempty)
    exact ⟨calls₁, rfl, hleft⟩

/-- A header of five bytes is the header of what it says. -/
theorem serializeRpcHeader_deserializeRpcHeader {data : Bytes} (h : data.length = 5) :
    serializeRpcHeader (deserializeRpcHeader data).1 (deserializeRpcHeader data).2 = data := by
  cases data with
  | nil => exact absurd h (by simp)
  | cons type length =>
    have hlength : length.length = 4 := Nat.succ.inj h
    rw [deserializeRpcHeader, serializeRpcHeader, List.headD_cons, List.drop_succ_cons,
      List.drop_zero, List.take_of_length_le hlength.le, ← hlength, bigEndian_ofBigEndian]

/-- **Only frames are received**: without one at its start a stream makes `recvRpc` fail. -/
theorem recvRpc_eq_none {calls : List (Recv UInt8)}
    (h : ∀ rpc, frameCode.Valid rpc → ¬ frame rpc <+: arrived retried calls) :
    recvRpc calls = none := by
  rcases Nat.lt_or_ge (arrived retried calls).length 5 with hshort | hlong
  · rw [recvRpc, recvAll_of_lt hshort, Option.bind_none]
  obtain ⟨calls₁, hrecv, hleft⟩ := recvAll_of_le hlong
  have hlen : ((arrived retried calls).take 5).length = 5 := List.length_take_of_le hlong
  have hheader := serializeRpcHeader_deserializeRpcHeader hlen
  have hbound : (deserializeRpcHeader ((arrived retried calls).take 5)).2 < 2 ^ 32 := by
    have hlt := ofBigEndian_lt ((((arrived retried calls).take 5).drop 1).take 4)
    rwa [List.length_take_of_le (by rw [List.length_drop, hlen])] at hlt
  rw [recvRpc, hrecv, Option.bind_some]
  dsimp only
  generalize deserializeRpcHeader ((arrived retried calls).take 5) = fields at hheader hbound ⊢
  obtain ⟨type, n⟩ := fields
  -- the body cannot be there
  have hbody : (arrived retried calls₁).length < n := by
    by_contra hle
    have htake : ((arrived retried calls₁).take n).length = n :=
      List.length_take_of_le (not_lt.mp hle)
    have hvalid : ((arrived retried calls₁).take n).length < 2 ^ 32 := by
      rw [htake]
      exact hbound
    refine h (type, (arrived retried calls₁).take n) hvalid ?_
    rw [frame, htake]
    dsimp only at hheader ⊢
    rw [hheader, ← List.take_append_drop 5 (arrived retried calls), ← hleft,
      List.take_left' hlen]
    exact (List.prefix_append_right_inj _).mpr (List.take_prefix _ _)
  rw [if_pos (Nat.zero_lt_of_lt hbody), recvAll_of_lt hbody, Option.map_none]

/-- **What successive calls return**: the longest run of frames at the start of the stream, and no
more. -/
theorem recvRpcs_eq {calls : List (Recv UInt8)} {rpcs : List (UInt8 × Bytes)}
    (h : frameCode.IsLongest rpcs (arrived retried calls)) (n : ℕ) :
    recvRpcs n calls = rpcs.take n := by
  induction n generalizing calls rpcs with
  | zero => rfl
  | succ n ih =>
    cases rpcs with
    | nil =>
      have hnone : recvRpc calls = none := recvRpc_eq_none fun rpc hrpc hpre =>
        h.stuck rpc hrpc (by rwa [List.nil_append, PrefixCode.encode_singleton])
      rw [recvRpcs, hnone, List.take_nil]
    | cons rpc rpcs =>
      have hrpc : frameCode.Valid rpc := h.valid rpc List.mem_cons_self
      obtain ⟨rest, hrest⟩ : frame rpc <+: arrived retried calls :=
        (List.prefix_append _ _).trans h.isPrefix
      obtain ⟨calls', hrecv, hleft⟩ := recvRpc_frame hrpc hrest.symm
      rw [← hrest] at h
      rw [recvRpcs, hrecv, List.take_succ_cons]
      refine congrArg _ (ih ?_)
      rw [hleft]
      exact (PrefixCode.isLongest_cons hrpc).mp h

/-! ## What is sent -/

/-- `sendAll` sends from the start, and all of it if it says so. -/
theorem sendAll_sent (calls : List Send) (data : Bytes) :
    (sendAll calls data).2.1 <+: data ∧
      ((sendAll calls data).1 = true → (sendAll calls data).2.1 = data) := by
  induction calls generalizing data with
  | nil => cases data <;> simp [sendAll]
  | cons c calls ih =>
    cases data with
    | nil => simp [sendAll]
    | cons b data =>
      cases c with
      | fault f =>
        rw [sendAll]
        split
        · exact ih (b :: data)
        · simp
      | accepted n =>
        rw [sendAll]
        split
        · simp
        · obtain ⟨hpre, hall⟩ := ih ((b :: data).drop n)
          have hsplit := List.take_append_drop n (b :: data)
          constructor
          · conv_rhs => rw [← hsplit]
            exact (List.prefix_append_right_inj _).mpr hpre
          · intro hok
            dsimp only
            rw [hall hok, hsplit]

/-- A call after which `sendAll` goes on: it has taken something, or was interrupted. -/
def Send.goesOn : Send → Bool
  | .fault f => retried f
  | .accepted n => decide (0 < n)

/-- A call that has taken something. -/
def Send.takes : Send → Bool
  | .fault _ => false
  | .accepted n => decide (0 < n)

/-- **`sendAll` gets done**, however little each call takes and however many are interrupted, if
there are as many calls that take something as there are bytes.  It uses up one of them for each
byte at most. -/
theorem sendAll_complete {calls : List Send} (hgo : ∀ c ∈ calls, c.goesOn = true) (data : Bytes)
    (hlen : data.length ≤ calls.countP Send.takes) :
    ∃ left, sendAll calls data = (true, data, left) ∧ left <:+ calls ∧
      calls.countP Send.takes ≤ left.countP Send.takes + data.length := by
  induction calls generalizing data with
  | nil =>
    obtain rfl : data = [] := List.length_eq_zero_iff.mp (Nat.le_zero.mp hlen)
    exact ⟨[], rfl, List.suffix_rfl, le_rfl⟩
  | cons c calls ih =>
    have hc := hgo c List.mem_cons_self
    have hgo' : ∀ c ∈ calls, c.goesOn = true := fun x hx => hgo x (List.mem_cons_of_mem c hx)
    cases data with
    | nil => exact ⟨c :: calls, rfl, List.suffix_rfl, le_rfl⟩
    | cons b data =>
      cases c with
      | fault f =>
        have hretried : retried f = true := hc
        have hcount : (Send.fault f :: calls).countP Send.takes = calls.countP Send.takes :=
          List.countP_cons_of_neg (by simp [Send.takes])
        rw [hcount] at hlen ⊢
        obtain ⟨left, hsend, hleft, hused⟩ := ih hgo' _ hlen
        refine ⟨left, ?_, hleft.trans (List.suffix_cons _ _), hused⟩
        rw [sendAll, if_pos hretried, hsend]
      | accepted n =>
        have hpos : 0 < n := of_decide_eq_true hc
        have hcount : (Send.accepted n :: calls).countP Send.takes = calls.countP Send.takes + 1 :=
          List.countP_cons_of_pos hc
        have hdrop : ((b :: data).drop n).length + 1 ≤ (b :: data).length := by
          rw [List.length_drop, List.length_cons]
          omega
        rw [hcount] at hlen ⊢
        obtain ⟨left, hsend, hleft, hused⟩ := ih hgo' ((b :: data).drop n) (by omega)
        refine ⟨left, ?_, hleft.trans (List.suffix_cons _ _), by omega⟩
        rw [sendAll, if_neg hpos.ne', hsend]
        dsimp only
        rw [List.take_append_drop]

/-- `sendRpc` sends a frame. -/
theorem sendRpc_sent (calls : List Send) (type : RpcType) {body : Bytes}
    (hlen : body.length < 2 ^ 32) :
    (sendRpc calls type body).2.1 <+: frame (type.code, body) ∧
      ((sendRpc calls type body).1 = true →
        (sendRpc calls type body).2.1 = frame (type.code, body)) := by
  obtain ⟨hpre, hall⟩ := sendAll_sent calls (serializeRpcHeader type.code (body.length % 2 ^ 32))
  rw [Nat.mod_eq_of_lt hlen] at hpre hall
  rw [sendRpc]
  dsimp only
  rw [Nat.mod_eq_of_lt hlen]
  generalize sendAll calls (serializeRpcHeader type.code body.length) = r at hpre hall ⊢
  obtain ⟨_ | _, sent, calls'⟩ := r
  · exact ⟨hpre.trans (List.prefix_append _ _), fun h => absurd h (by simp)⟩
  · obtain rfl := hall rfl
    dsimp only
    split
    · next hnil =>
      subst hnil
      rw [frame, List.append_nil]
      exact ⟨List.prefix_rfl, fun _ => rfl⟩
    · obtain ⟨hpre', hall'⟩ := sendAll_sent calls' body
      refine ⟨(List.prefix_append_right_inj _).mpr hpre', fun h => ?_⟩
      rw [hall' h]
      rfl

/-- `sendRpc` gets done in the same way. -/
theorem sendRpc_complete {calls : List Send} (hgo : ∀ c ∈ calls, c.goesOn = true) (type : RpcType)
    {body : Bytes} (hlen : body.length < 2 ^ 32)
    (hframe : (frame (type.code, body)).length ≤ calls.countP Send.takes) :
    ∃ left, sendRpc calls type body = (true, frame (type.code, body), left) ∧ left <:+ calls ∧
      calls.countP Send.takes ≤ left.countP Send.takes + (frame (type.code, body)).length := by
  rw [frame, List.length_append] at hframe ⊢
  dsimp only at hframe ⊢
  obtain ⟨left, hheader, hleft, hused⟩ := sendAll_complete hgo
    (serializeRpcHeader type.code body.length) (by omega)
  rw [sendRpc]
  dsimp only
  rw [Nat.mod_eq_of_lt hlen, hheader]
  dsimp only
  split
  · next hnil =>
    rw [hnil, List.append_nil]
    exact ⟨left, rfl, hleft, hused⟩
  · obtain ⟨left', hbody, hleft', hused'⟩ := sendAll_complete
      (fun c hc => hgo c (hleft.subset hc)) body (by omega)
    refine ⟨left', ?_, hleft'.trans hleft, by omega⟩
    rw [hbody]

/-- **What successive calls send**: the frames, and all of them if every call says so. -/
theorem sendRpcs_sent {rpcs : List (RpcType × Bytes)} (hlen : ∀ rpc ∈ rpcs, rpc.2.length < 2 ^ 32)
    (calls : List Send) :
    (sendRpcs calls rpcs).2 <+: frameCode.encode (rpcs.map numbered) ∧
      ((sendRpcs calls rpcs).1 = true →
        (sendRpcs calls rpcs).2 = frameCode.encode (rpcs.map numbered)) := by
  induction rpcs generalizing calls with
  | nil => simp [sendRpcs]
  | cons rpc rpcs ih =>
    obtain ⟨type, body⟩ := rpc
    obtain ⟨hpre, hall⟩ := sendRpc_sent calls type (hlen (type, body) List.mem_cons_self)
    rw [List.map_cons, PrefixCode.encode_cons, sendRpcs]
    generalize sendRpc calls type body = r at hpre hall ⊢
    obtain ⟨_ | _, sent, calls'⟩ := r
    · exact ⟨hpre.trans (List.prefix_append _ _), fun h => absurd h (by simp)⟩
    · obtain rfl := hall rfl
      obtain ⟨hpre', hall'⟩ := ih (fun rpc hrpc => hlen rpc (List.mem_cons_of_mem _ hrpc)) calls'
      refine ⟨(List.prefix_append_right_inj _).mpr hpre', fun h => ?_⟩
      dsimp only
      rw [hall' h]
      rfl

/-- **All frames are sent**, in whatever pieces, if there are calls enough. -/
theorem sendRpcs_complete {rpcs : List (RpcType × Bytes)}
    (hlen : ∀ rpc ∈ rpcs, rpc.2.length < 2 ^ 32) {calls : List Send}
    (hgo : ∀ c ∈ calls, c.goesOn = true)
    (hcalls : (frameCode.encode (rpcs.map numbered)).length ≤ calls.countP Send.takes) :
    sendRpcs calls rpcs = (true, frameCode.encode (rpcs.map numbered)) := by
  induction rpcs generalizing calls with
  | nil => rfl
  | cons rpc rpcs ih =>
    obtain ⟨type, body⟩ := rpc
    have hword : frameCode.word (numbered (type, body)) = frame (type.code, body) := rfl
    rw [List.map_cons, PrefixCode.encode_cons, hword] at hcalls ⊢
    rw [List.length_append] at hcalls
    have hbody : body.length < 2 ^ 32 := hlen (type, body) List.mem_cons_self
    obtain ⟨left, hsend, hleft, hused⟩ := sendRpc_complete hgo type hbody (by omega)
    have hrest := ih (fun rpc hrpc => hlen rpc (List.mem_cons_of_mem _ hrpc))
      (fun c hc => hgo c (hleft.subset hc)) (by omega)
    rw [sendRpcs, hsend]
    dsimp only
    rw [hrest]

/-! ## From end to end -/

/-- What a server does on one connection: it handles the first RPC that arrives. -/
def Server.serves (s : Server) : List (RpcType × Bytes) → Option (Server × List Output)
  | [] => some (s, [])
  | (type, body) :: _ => s.handlePeerConnection type body

theorem servePeer_eq {calls : List (Recv UInt8)} {rpcs : List (RpcType × Bytes)}
    (h : recvRpcs 1 calls = (rpcs.map numbered).take 1) (s : Server) :
    s.servePeer calls = s.serves rpcs := by
  rw [recvRpcs] at h
  rw [Server.servePeer]
  cases rpcs with
  | nil =>
    rcases hrecv : recvRpc calls with _ | ⟨rpc, calls'⟩
    · rfl
    · rw [hrecv] at h
      exact absurd h (by simp)
  | cons rpc rpcs =>
    rcases hrecv : recvRpc calls with _ | ⟨rpc', calls'⟩
    · rw [hrecv] at h
      exact absurd h (by simp)
    · rw [hrecv] at h
      obtain rfl : rpc' = numbered rpc := (List.cons.inj h).1
      rw [numbered]
      dsimp only
      rw [RpcType.ofCode?_code]
      rfl

/-- **RPCs over a stream.**  RPCs are sent on one connection, whatever the calls of `send` do, and the
stream that arrives ends anywhere in what was sent.  Calls of `send` that take one byte or more, or
are interrupted, get all of them out if there are enough of them.  Successive calls of `recvRpc`
return, in order, the RPCs that have arrived completely, the next call fails, and a handler gets the
first of them or nothing.  If all is sent and arrives, these are all RPCs. -/
theorem rpcs_received {rpcs : List (RpcType × Bytes)} (hlen : ∀ rpc ∈ rpcs, rpc.2.length < 2 ^ 32)
    (sends : List Send) {recvs : List (Recv UInt8)}
    (hstream : arrived retried recvs <+: (sendRpcs sends rpcs).2) :
    ((∀ call ∈ sends, call.goesOn = true) →
      (frameCode.encode (rpcs.map numbered)).length ≤ sends.countP Send.takes →
        sendRpcs sends rpcs = (true, frameCode.encode (rpcs.map numbered))) ∧
    ∃ k ≤ rpcs.length,
      (∀ n, recvRpcs n recvs = ((rpcs.take k).map numbered).take n) ∧
      (∀ s : Server, s.servePeer recvs = s.serves (rpcs.take k)) ∧
      (∀ j ≤ rpcs.length, j ≤ k ↔
        frameCode.encode ((rpcs.take j).map numbered) <+: arrived retried recvs) ∧
      ((sendRpcs sends rpcs).1 = true → arrived retried recvs = (sendRpcs sends rpcs).2 →
        k = rpcs.length) := by
  have hvalid : ∀ rpc ∈ rpcs.map numbered, frameCode.Valid rpc := by
    intro rpc hrpc
    obtain ⟨rpc', hrpc', rfl⟩ := List.mem_map.mp hrpc
    exact hlen rpc' hrpc'
  obtain ⟨hpre, hall⟩ := sendRpcs_sent hlen sends
  obtain ⟨as, has⟩ := frameCode.exists_isLongest (arrived retried recvs)
  have hsent : as <+: rpcs.map numbered :=
    (has.toIsRun.mono (hstream.trans hpre)).isPrefix_of_longest (PrefixCode.isLongest_encode hvalid)
  refine ⟨fun hgo hcalls => sendRpcs_complete hlen hgo hcalls, ?_⟩
  have htake : as = (rpcs.take as.length).map numbered := by
    rw [List.map_take]
    exact List.prefix_iff_eq_take.mp hsent
  have hreceived : ∀ n, recvRpcs n recvs = ((rpcs.take as.length).map numbered).take n := by
    intro n
    rw [← htake]
    exact recvRpcs_eq has n
  refine ⟨as.length, by simpa using hsent.length_le, hreceived, servePeer_eq (hreceived 1),
    fun j hj => ⟨fun hle => ?_, fun hrun => ?_⟩, fun hok harrived => ?_⟩
  · -- the first RPCs are a part of the run
    have hpart : (rpcs.take j).map numbered <+: as := by
      rw [htake]
      exact (List.take_prefix_take_left hle).map numbered
    obtain ⟨rest, hrest⟩ := hpart
    rw [← hrest] at has
    refine List.IsPrefix.trans ?_ has.isPrefix
    rw [PrefixCode.encode_append]
    exact List.prefix_append _ _
  · have hj' : ((rpcs.take j).map numbered).length = j := by
      rw [List.length_map, List.length_take_of_le hj]
    have hlongest := PrefixCode.IsRun.isPrefix_of_longest ⟨fun rpc hrpc => ?_, hrun⟩ has
    · rw [← hj']
      exact hlongest.length_le
    · rw [List.map_take] at hrpc
      exact hvalid rpc (List.mem_of_mem_take hrpc)
  · rw [harrived, hall hok] at has
    have heq := has.unique (PrefixCode.isLongest_encode hvalid)
    rw [heq, List.length_map]

/-- Two RPCs, sent byte by byte and received in four parts, with interruptions; a boundary falls into
the first header, and another chunk holds the end of one RPC and the start of the next. -/
theorem rpcs_received_two :
    (sendRpcs (.fault .interrupted :: List.replicate 12 (.accepted 1))
        [(.requestVoteArgs, [7, 8]), (.appendEntriesReply, [])]).1 = true ∧
      recvRpcs 3 [.received [1, 0], .fault .interrupted, .received [0, 0, 2, 7],
        .received [8, 4, 0], .received [0, 0, 0]] = [(1, [7, 8]), (4, [])] := by
  obtain ⟨hsent, k, -, hrecv, -, -, hall⟩ := @rpcs_received
    [(.requestVoteArgs, [7, 8]), (.appendEntriesReply, [])] (by decide)
    (.fault .interrupted :: List.replicate 12 (.accepted 1))
    [.received [1, 0], .fault .interrupted, .received [0, 0, 2, 7], .received [8, 4, 0],
      .received [0, 0, 0]] (by decide)
  have hdone := congrArg Prod.fst (hsent (by decide) (by decide))
  refine ⟨hdone, ?_⟩
  rw [hrecv, hall hdone (by decide)]
  rfl

end RaftConsensus
